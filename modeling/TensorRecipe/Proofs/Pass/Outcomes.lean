import TensorRecipe.Proofs.Pass.Ensures

/-!
# Whatever comes of steps

`steps.Ends w Q E` says what holds whichever way steps begun in the workspace `w` end: `Q` of an
answer and the workspace left, or `E` of a fault and the workspace left.  The rules follow those of
`Gives` and `Ensures`; the one for a sequence takes the same `E` for both of its parts, since what
is said of a fault is said with regard to where the sequence began.
-/

namespace TensorRecipe

namespace PassM

variable {ω α β : Type}

/-- What holds of an answer, of a fault, and of the workspace left in either case. -/
structure Ends (steps : PassM ω α) (w : Workspace ω) (Q : α → Workspace ω → Prop)
    (E : Fault → Workspace ω → Prop) : Prop where
  ok : ∀ x w', steps w = .ok x w' → Q x w'
  error : ∀ fault w', steps w = .error fault w' → E fault w'

variable {w : Workspace ω} {Q : α → Workspace ω → Prop} {R : β → Workspace ω → Prop}
  {E : Fault → Workspace ω → Prop}

theorem Gives.ends {steps : PassM ω α} (h : steps.Gives w Q) : steps.Ends w Q E := by
  obtain ⟨x, w₁, hrun, -⟩ := id h
  exact ⟨h.ensures, fun fault w' herr => by simp [hrun] at herr⟩

theorem ends_throw {fault : Fault} (h : E fault w) : (throw fault : PassM ω α).Ends w Q E := by
  refine ⟨fun _ _ hrun => (nomatch hrun), fun _ _ hrun => ?_⟩
  cases hrun
  exact h

theorem Ends.mono {steps : PassM ω α} (h : steps.Ends w Q E) {Q' : α → Workspace ω → Prop}
    {E' : Fault → Workspace ω → Prop} (hQ : ∀ x w', Q x w' → Q' x w')
    (hE : ∀ fault w', E fault w' → E' fault w') : steps.Ends w Q' E' :=
  ⟨fun x w' hrun => hQ x w' (h.ok x w' hrun),
    fun fault w' hrun => hE fault w' (h.error fault w' hrun)⟩

theorem Ends.bind {steps : PassM ω α} {f : α → PassM ω β} (h : steps.Ends w Q E)
    (hf : ∀ x w', Q x w' → (f x).Ends w' R E) : (steps >>= f).Ends w R E := by
  cases hrun : steps w with
  | ok x w' =>
    have hx := hf x w' (h.ok x w' hrun)
    exact ⟨fun y w'' hy => hx.ok y w'' (by rwa [bind_of_ok hrun] at hy),
      fun fault w'' hy => hx.error fault w'' (by rwa [bind_of_ok hrun] at hy)⟩
  | error fault w' =>
    have hfault := h.error fault w' hrun
    refine ⟨fun y w'' hy => ?_, fun fault' w'' hy => ?_⟩ <;> rw [bind_of_error hrun] at hy
    · cases hy
    · cases hy
      exact hfault

theorem ends_ask_bind {look : Arena → Except Fault α} {f : α → PassM ω β}
    (hf : ∀ x, look w.arena = .ok x → (f x).Ends w R E)
    (hE : ∀ fault, look w.arena = .error fault → E fault w) : (ask look >>= f).Ends w R E := by
  refine Ends.bind (Q := fun x w' => look w.arena = .ok x ∧ w' = w) ⟨fun x w' hrun => ?_,
    fun fault w' hrun => ?_⟩ ?_
  · exact of_ask_eq_ok hrun
  · simp only [ask] at hrun
    split at hrun
    · cases hrun
    · next hlook =>
      cases hrun
      exact hE _ hlook
  · rintro x _ ⟨hx, rfl⟩
    exact hf x hx

end PassM

end TensorRecipe
