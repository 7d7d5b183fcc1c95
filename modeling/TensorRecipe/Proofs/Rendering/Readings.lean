import TensorRecipe.Node
import Mathlib

/-!
# Reading a text from left to right

A text of names, operators, brackets and lets can be read in one way only.  `Reading` is what such a
text says, in the order in which it says it: what follows an operand is a `Rest`, an application of
what stands before it or an operator with another reading behind it.  A reading says nothing about
which operator binds tighter, and the body of a let goes on to the end.

`r.write u` is the text of `r` with `u` behind it.

Main statement: a text has one reading (`Reading.write_inj`), if what follows it can follow none of
its operands (`Ends`).
-/

namespace TensorRecipe

namespace Rendering

/-! ### Names -/

/-- The characters that stand between names. -/
def punctuation : List Char := [' ', ',', '(', ')', '[', ']', '=', '+', '*']

/-- A name that can be told from what stands around it and from the words of a let. -/
structure Name where
  text : String
  ne_empty : text.toList ≠ []
  plain : ∀ c ∈ text.toList, c ∉ punctuation
  ne_let : text ≠ "let"
  ne_in : text ≠ "in"
deriving DecidableEq

namespace Name

/-- Any text of letters and digits but `let` and `in`. -/
def ofAlphanum (text : String) (hne : text.toList ≠ [])
    (halphanum : ∀ c ∈ text.toList, c.isAlphanum) (hlet : text ≠ "let") (hin : text ≠ "in") :
    Name where
  text := text
  ne_empty := hne
  plain := by
    intro c hc hmem
    have hnone : punctuation.any Char.isAlphanum = false := by decide
    exact absurd (halphanum c hc) (List.any_eq_false.1 hnone c hmem)
  ne_let := hlet
  ne_in := hin

theorem ext_toList {x y : Name} (h : x.text.toList = y.text.toList) : x = y := by
  obtain ⟨s, _, _, _, _⟩ := x
  obtain ⟨t, _, _, _, _⟩ := y
  obtain rfl : s = t := String.toList_inj.1 h
  rfl

end Name

/-- Nothing, or something that starts with punctuation. -/
def Breaks (u : List Char) : Prop := ∀ c ∈ u.head?, c ∈ punctuation

theorem breaks_cons {c : Char} {u : List Char} (h : c ∈ punctuation) : Breaks (c :: u) := by
  intro d hd
  obtain rfl : c = d := by simpa using hd
  exact h

/-- A run of plain characters goes up to the punctuation. -/
theorem plain_append_inj {xs ys u v : List Char} (hxs : ∀ c ∈ xs, c ∉ punctuation)
    (hys : ∀ c ∈ ys, c ∉ punctuation) (hu : Breaks u) (hv : Breaks v) (h : xs ++ u = ys ++ v) :
    xs = ys ∧ u = v := by
  induction xs generalizing ys with
  | nil =>
    cases ys with
    | nil => exact ⟨rfl, h⟩
    | cons y ys =>
      obtain rfl : u = y :: (ys ++ v) := h
      exact absurd (hu y (by simp)) (hys y (by simp))
  | cons x xs ih =>
    cases ys with
    | nil =>
      obtain rfl : x :: (xs ++ u) = v := h
      exact absurd (hv x (by simp)) (hxs x (by simp))
    | cons y ys =>
      obtain ⟨rfl, htail⟩ := List.cons.inj h
      obtain ⟨rfl, rfl⟩ := ih (fun c hc => hxs c (.tail _ hc)) (fun c hc => hys c (.tail _ hc)) htail
      exact ⟨rfl, rfl⟩

/-! ### Readings -/

/-- The operators that are written between their operands. -/
inductive Infix where
  | plus
  | times
deriving DecidableEq

namespace Infix

/-- The character of an operator. -/
def sign : Infix → Char
  | plus => '+'
  | times => '*'

theorem sign_inj : ∀ {o p : Infix}, o.sign = p.sign → o = p := by
  intro o p h
  cases o <;> cases p <;> first | rfl | exact absurd h (by decide)

end Infix

/-- The brackets around arguments. -/
def opening : Application → Char
  | .subscript => '['
  | .call => '('

/-- The brackets around arguments. -/
def closing : Application → Char
  | .subscript => ']'
  | .call => ')'

theorem opening_inj : ∀ {m n : Application}, opening m = opening n → m = n := by
  intro m n h
  cases m <;> cases n <;> first | rfl | exact absurd h (by decide)

mutual

/-- What a text says, from left to right. -/
inductive Reading where
  | name (x : Name) (rest : Rest)
  /-- A reading in parentheses. -/
  | group (inner : Reading) (rest : Rest)
  /-- The body goes on to the end. -/
  | letIn (bindings : List (Name × Reading)) (body : Reading)

/-- What a text says behind an operand. -/
inductive Rest where
  | stop
  /-- The operand is applied to arguments. -/
  | apply (how : Application) (args : List Reading) (rest : Rest)
  /-- Another operand follows. -/
  | operand (op : Infix) (next : Reading)

end

mutual

/-- The text of a reading, with more behind it. -/
def Reading.write : Reading → List Char → List Char
  | .name x k, u => x.text.toList ++ k.write u
  | .group r k, u => '(' :: r.write (')' :: k.write u)
  | .letIn bs body, u => 'l' :: 'e' :: 't' :: ' ' :: writeBindings bs (body.write u)

/-- The text of what follows an operand, with more behind it. -/
def Rest.write : Rest → List Char → List Char
  | .stop, u => u
  | .apply how args k, u => opening how :: writeArgs (closing how) args (k.write u)
  | .operand op r, u => ' ' :: op.sign :: ' ' :: r.write u

/-- The text of arguments and of the bracket that closes them. -/
def writeArgs (close : Char) : List Reading → List Char → List Char
  | [], u => close :: u
  | [r], u => r.write (close :: u)
  | r :: rs, u => r.write (',' :: ' ' :: writeArgs close rs u)

/-- The text of the bindings of a let and of the word behind them. -/
def writeBindings : List (Name × Reading) → List Char → List Char
  | [], u => ' ' :: 'i' :: 'n' :: ' ' :: u
  | [(x, r)], u =>
    x.text.toList ++ ' ' :: '=' :: ' ' :: r.write (' ' :: 'i' :: 'n' :: ' ' :: u)
  | (x, r) :: bs, u =>
    x.text.toList ++ ' ' :: '=' :: ' ' :: r.write (',' :: ' ' :: writeBindings bs u)

end

/-- What may stand behind a whole reading: nothing, a bracket that closes, a comma or the word
behind the bindings of a let. -/
inductive Ends : List Char → Prop where
  | nil : Ends []
  | close {c : Char} {u : List Char} (h : c ∈ [')', ']', ',']) : Ends (c :: u)
  | into {u : List Char} : Ends (' ' :: 'i' :: u)

theorem Ends.closing (how : Application) {u : List Char} : Ends (closing how :: u) :=
  .close (by cases how <;> decide)

theorem Ends.breaks {u : List Char} (h : Ends u) : Breaks u := by
  have hall : ∀ d ∈ [')', ']', ','], d ∈ punctuation := by simp [punctuation]
  cases h with
  | nil => simp [Breaks]
  | close h => exact breaks_cons (hall _ h)
  | into => exact breaks_cons (by decide)

theorem not_ends_opening {how : Application} {u : List Char} : ¬ Ends (opening how :: u) := by
  intro h
  generalize hc : opening how = c at h
  cases h with
  | close h => cases how <;> subst hc <;> exact absurd h (by decide)
  | into => cases how <;> exact absurd hc (by decide)

theorem not_ends_sign {op : Infix} {u : List Char} : ¬ Ends (' ' :: op.sign :: u) := by
  intro h
  generalize hc : op.sign = c at h
  cases h with
  | close h => exact absurd h (by decide)
  | into => cases op <;> exact absurd hc (by decide)

theorem Rest.breaks_write {u : List Char} (hu : Ends u) : ∀ k : Rest, Breaks (k.write u)
  | .stop => by rw [Rest.write]; exact hu.breaks
  | .apply how _ _ => breaks_cons (by cases how <;> decide)
  | .operand _ _ => breaks_cons (by decide)

/-! ### One reading for a text -/

/-- The characters of a name, up to where it breaks off. -/
theorem name_append_inj {x y : Name} {u v : List Char} (hu : Breaks u) (hv : Breaks v)
    (h : x.text.toList ++ u = y.text.toList ++ v) : x = y ∧ u = v := by
  obtain ⟨hxy, huv⟩ := plain_append_inj x.plain y.plain hu hv h
  exact ⟨Name.ext_toList hxy, huv⟩

theorem name_append_ne {x : Name} {u v : List Char} {c : Char} (hc : c ∈ punctuation) :
    x.text.toList ++ u ≠ c :: v := by
  intro h
  have hplain := x.plain
  cases hx : x.text.toList with
  | nil => exact x.ne_empty hx
  | cons d ds =>
    rw [hx] at h hplain
    obtain ⟨rfl, -⟩ := List.cons.inj h
    exact hplain d (by simp) hc

/-- No name reads as the word before the bindings of a let. -/
theorem name_append_ne_let {x : Name} {u v : List Char} (hu : Breaks u) :
    x.text.toList ++ u ≠ 'l' :: 'e' :: 't' :: ' ' :: v := by
  intro h
  have hrun : ∀ c ∈ "let".toList, c ∉ punctuation := by simp [punctuation]
  have hv : Breaks (' ' :: v) := breaks_cons (by decide)
  obtain ⟨hx, -⟩ := plain_append_inj x.plain hrun hu hv h
  exact x.ne_let (String.toList_inj.1 hx)

/-- A reading does not start with what closes a bracket. -/
theorem Reading.write_ne_closing {how : Application} {u v : List Char} :
    ∀ r : Reading, r.write u ≠ closing how :: v
  | .name x k => by
    rw [Reading.write]
    exact name_append_ne (by cases how <;> decide)
  | .group r k => by cases how <;> simp [Reading.write, closing]
  | .letIn bs body => by cases how <;> simp [Reading.write, closing]

mutual

/-- A text has one reading. -/
theorem Reading.write_inj : ∀ {r s : Reading} {u v : List Char}, Ends u → Ends v →
    r.write u = s.write v → r = s ∧ u = v
  | .name x k, .name y l, u, v, hu, hv, h => by
    simp only [Reading.write] at h
    obtain ⟨rfl, hrest⟩ := name_append_inj (k.breaks_write hu) (l.breaks_write hv) h
    obtain ⟨rfl, rfl⟩ := Rest.write_inj hu hv hrest
    exact ⟨rfl, rfl⟩
  | .group r k, .group s l, u, v, hu, hv, h => by
    simp only [Reading.write] at h
    obtain ⟨rfl, hclose⟩ := Reading.write_inj (.closing .call) (.closing .call) (List.cons.inj h).2
    obtain ⟨rfl, rfl⟩ := Rest.write_inj hu hv (List.cons.inj hclose).2
    exact ⟨rfl, rfl⟩
  | .letIn bs body, .letIn cs body', u, v, hu, hv, h => by
    simp only [Reading.write, List.cons.injEq, true_and] at h
    obtain ⟨rfl, hbody⟩ := writeBindings_inj h
    obtain ⟨rfl, rfl⟩ := Reading.write_inj hu hv hbody
    exact ⟨rfl, rfl⟩
  | .name x k, .group s l, u, v, _, _, h => by
    simp only [Reading.write] at h
    exact absurd h (name_append_ne (by decide))
  | .group r k, .name y l, u, v, _, _, h => by
    simp only [Reading.write] at h
    exact absurd h.symm (name_append_ne (by decide))
  | .name x k, .letIn cs body, u, v, hu, _, h => by
    simp only [Reading.write] at h
    exact absurd h (name_append_ne_let (k.breaks_write hu))
  | .letIn bs body, .name y l, u, v, _, hv, h => by
    simp only [Reading.write] at h
    exact absurd h.symm (name_append_ne_let (l.breaks_write hv))
  | .group r k, .letIn cs body, u, v, _, _, h => by simp [Reading.write] at h
  | .letIn bs body, .group s l, u, v, _, _, h => by simp [Reading.write] at h
termination_by structural r => r

theorem Rest.write_inj : ∀ {k l : Rest} {u v : List Char}, Ends u → Ends v →
    k.write u = l.write v → k = l ∧ u = v
  | .stop, .stop, u, v, _, _, h => ⟨rfl, by simpa [Rest.write] using h⟩
  | .apply how args k, .apply how' args' l, u, v, hu, hv, h => by
    simp only [Rest.write, List.cons.injEq] at h
    obtain ⟨hopen, hargs⟩ := h
    obtain rfl := opening_inj hopen
    obtain ⟨rfl, hrest⟩ := writeArgs_inj hargs
    obtain ⟨rfl, rfl⟩ := Rest.write_inj hu hv hrest
    exact ⟨rfl, rfl⟩
  | .operand op r, .operand op' s, u, v, hu, hv, h => by
    simp only [Rest.write, List.cons.injEq, true_and] at h
    obtain ⟨hsign, hnext⟩ := h
    obtain rfl := Infix.sign_inj hsign
    obtain ⟨rfl, rfl⟩ := Reading.write_inj hu hv hnext
    exact ⟨rfl, rfl⟩
  | .stop, .apply _ _ _, u, v, hu, _, h => by
    simp only [Rest.write] at h
    exact absurd (h ▸ hu) not_ends_opening
  | .apply _ _ _, .stop, u, v, _, hv, h => by
    simp only [Rest.write] at h
    exact absurd (h ▸ hv) not_ends_opening
  | .stop, .operand _ _, u, v, hu, _, h => by
    simp only [Rest.write] at h
    exact absurd (h ▸ hu) not_ends_sign
  | .operand _ _, .stop, u, v, _, hv, h => by
    simp only [Rest.write] at h
    exact absurd (h ▸ hv) not_ends_sign
  | .apply how _ _, .operand _ _, u, v, _, _, h => by cases how <;> simp [Rest.write, opening] at h
  | .operand _ _, .apply how _ _, u, v, _, _, h => by cases how <;> simp [Rest.write, opening] at h
termination_by structural k => k

theorem writeArgs_inj {how : Application} : ∀ {rs ss : List Reading} {u v : List Char},
    writeArgs (closing how) rs u = writeArgs (closing how) ss v → rs = ss ∧ u = v
  | [], [], u, v, h => ⟨rfl, (List.cons.inj h).2⟩
  | [], [s], u, v, h => absurd h.symm s.write_ne_closing
  | [], s :: _ :: _, u, v, h => absurd h.symm s.write_ne_closing
  | [r], [], u, v, h => absurd h r.write_ne_closing
  | r :: _ :: _, [], u, v, h => absurd h r.write_ne_closing
  | [r], [s], u, v, h => by
    obtain ⟨rfl, hclose⟩ := Reading.write_inj (.closing how) (.closing how) h
    exact ⟨rfl, (List.cons.inj hclose).2⟩
  | [r], s :: _ :: _, u, v, h => by
    obtain ⟨-, hnext⟩ := Reading.write_inj (.closing how) (.close (by decide)) h
    cases how <;> exact absurd (List.cons.inj hnext).1 (by decide)
  | r :: _ :: _, [s], u, v, h => by
    obtain ⟨-, hnext⟩ := Reading.write_inj (.close (by decide)) (.closing how) h
    cases how <;> exact absurd (List.cons.inj hnext).1 (by decide)
  | r :: r' :: rs, s :: s' :: ss, u, v, h => by
    obtain ⟨rfl, hnext⟩ := Reading.write_inj (.close (by decide)) (.close (by decide)) h
    simp only [List.cons.injEq, true_and] at hnext
    obtain ⟨htail, rfl⟩ := writeArgs_inj hnext
    exact ⟨congrArg (r :: ·) htail, rfl⟩
termination_by structural rs => rs

theorem writeBindings_inj : ∀ {bs cs : List (Name × Reading)} {u v : List Char},
    writeBindings bs u = writeBindings cs v → bs = cs ∧ u = v
  | [], [], u, v, h => ⟨rfl, by simpa [writeBindings] using h⟩
  | [], [(y, s)], u, v, h => absurd h.symm (name_append_ne (by decide))
  | [], (y, s) :: _ :: _, u, v, h => absurd h.symm (name_append_ne (by decide))
  | [(x, r)], [], u, v, h => absurd h (name_append_ne (by decide))
  | (x, r) :: _ :: _, [], u, v, h => absurd h (name_append_ne (by decide))
  | [(x, r)], [(y, s)], u, v, h => by
    obtain ⟨rfl, hvalue⟩ := name_append_inj (breaks_cons (by decide)) (breaks_cons (by decide)) h
    simp only [List.cons.injEq, true_and] at hvalue
    obtain ⟨rfl, hnext⟩ := Reading.write_inj .into .into hvalue
    exact ⟨rfl, by simpa using hnext⟩
  | [(x, r)], (y, s) :: _ :: _, u, v, h => by
    obtain ⟨rfl, hvalue⟩ := name_append_inj (breaks_cons (by decide)) (breaks_cons (by decide)) h
    simp only [List.cons.injEq, true_and] at hvalue
    obtain ⟨-, hnext⟩ := Reading.write_inj .into (.close (by decide)) hvalue
    exact absurd (List.cons.inj hnext).1 (by decide)
  | (x, r) :: _ :: _, [(y, s)], u, v, h => by
    obtain ⟨rfl, hvalue⟩ := name_append_inj (breaks_cons (by decide)) (breaks_cons (by decide)) h
    simp only [List.cons.injEq, true_and] at hvalue
    obtain ⟨-, hnext⟩ := Reading.write_inj (.close (by decide)) .into hvalue
    exact absurd (List.cons.inj hnext).1 (by decide)
  | (x, r) :: b :: bs, (y, s) :: c :: cs, u, v, h => by
    obtain ⟨rfl, hvalue⟩ := name_append_inj (breaks_cons (by decide)) (breaks_cons (by decide)) h
    simp only [List.cons.injEq, true_and] at hvalue
    obtain ⟨rfl, hnext⟩ := Reading.write_inj (.close (by decide)) (.close (by decide)) hvalue
    simp only [List.cons.injEq, true_and] at hnext
    obtain ⟨htail, rfl⟩ := writeBindings_inj hnext
    exact ⟨congrArg ((x, r) :: ·) htail, rfl⟩
termination_by structural bs => bs

end

/-! ### Reading on -/

mutual

/-- The reading of a text with more behind it. -/
def Reading.append : Reading → Rest → Reading
  | .name x k, l => .name x (k.append l)
  | .group r k, l => .group r (k.append l)
  | .letIn bs body, l => .letIn bs (body.append l)

/-- What follows an operand, with more behind it. -/
def Rest.append : Rest → Rest → Rest
  | .stop, l => l
  | .apply how args k, l => .apply how args (k.append l)
  | .operand op r, l => .operand op (r.append l)

end

mutual

@[simp]
theorem Reading.write_append (l : Rest) (u : List Char) :
    ∀ r : Reading, (r.append l).write u = r.write (l.write u)
  | .name x k => by simp only [Reading.append, Reading.write, Rest.write_append l u k]
  | .group r k => by simp only [Reading.append, Reading.write, Rest.write_append l u k]
  | .letIn bs body => by simp only [Reading.append, Reading.write, Reading.write_append l u body]

@[simp]
theorem Rest.write_append (l : Rest) (u : List Char) :
    ∀ k : Rest, (k.append l).write u = k.write (l.write u)
  | .stop => rfl
  | .apply how args k => by simp only [Rest.append, Rest.write, Rest.write_append l u k]
  | .operand op r => by simp only [Rest.append, Rest.write, Reading.write_append l u r]

end

end Rendering

end TensorRecipe
