import Mathlib.Tactic

/-! Recursive procedures on a state that may fail, run with a bound on the depth of their
calls.  `none` means that the bound was too small; a larger bound changes no other
outcome, so a procedure has at most one. -/
namespace EnosKernel
namespace Fueled

variable {σ ε α β : Type}

/-- An exhausted bound, or a result together with the state it leaves behind. -/
abbrev Outcome (σ ε α : Type) := Option (Except ε α × σ)

/-- The `?` operator: go on with a value, hand an error on. -/
def andThen (r : Outcome σ ε α) (f : α → σ → Outcome σ ε β) : Outcome σ ε β :=
  match r with
  | none => none
  | some (.error e,s) => some (.error e,s)
  | some (.ok a,s) => f a s

def okOr (o : Option α) (e : ε) (s : σ) : Outcome σ ε α :=
  match o with
  | none => some (.error e,s)
  | some a => some (.ok a,s)

theorem andThen_eq_ok {r : Outcome σ ε α} {f : α → σ → Outcome σ ε β} {b : β} {t : σ} :
    andThen r f = some (.ok b,t) ↔ ∃ a s, r = some (.ok a,s) ∧ f a s = some (.ok b,t) := by
  rcases r with _ | ⟨_ | a,s⟩ <;> simp [andThen]

theorem okOr_eq_ok {o : Option α} {e : ε} {s t : σ} {a : α} :
    okOr o e s = some (.ok a,t) ↔ o = some a ∧ t = s := by
  cases o <;> simp [okOr,eq_comm]

theorem okOr_stays (o : Option α) (e : ε) (s : σ) : ∃ result, okOr o e s = some (result,s) := by
  cases o with
  | none => exact ⟨_,rfl⟩
  | some a => exact ⟨_,rfl⟩

/-- What the first outcome decides, the second decides in the same way. -/
def Below (r r' : Outcome σ ε α) : Prop := ∀ o, r = some o → r' = some o

theorem Below.refl (r : Outcome σ ε α) : Below r r := fun _ h => h

theorem below_of_eq_none {r r' : Outcome σ ε α} (h : r = none) : Below r r' := by
  intro o ho
  rw [h] at ho
  cases ho

theorem Below.andThen {r r' : Outcome σ ε α} {f f' : α → σ → Outcome σ ε β} (hr : Below r r')
    (hf : ∀ a s, Below (f a s) (f' a s)) : Below (andThen r f) (andThen r' f') := by
  intro o ho
  rcases r with _ | ⟨_ | a,s⟩
  · cases ho
  · rw [hr _ rfl]
    exact ho
  · rw [hr _ rfl]
    exact hf a s o ho

/-- A procedure whose outcomes survive a larger bound. -/
def Stable (f : ℕ → Outcome σ ε α) : Prop := ∀ n, Below (f n) (f (n+1))

theorem Stable.of_le {f : ℕ → Outcome σ ε α} (h : Stable f) {m n : ℕ} (hmn : m ≤ n) :
    Below (f m) (f n) := by
  induction hmn with
  | refl => exact Below.refl _
  | step _ ih => exact fun o ho => h _ o (ih o ho)

/-- Some bound is large enough for this outcome. -/
def Returns (f : ℕ → Outcome σ ε α) (o : Except ε α × σ) : Prop := ∃ n, f n = some o

theorem Returns.of_succ {f : ℕ → Outcome σ ε α} {o : Except ε α × σ} (h : Returns (fun n => f (n+1)) o) :
    Returns f o := by
  obtain ⟨n,hn⟩ := h
  exact ⟨n+1,hn⟩

theorem returns_const {f : ℕ → Outcome σ ε α} {o : Except ε α × σ} (h : ∀ n, f n = some o) :
    Returns f o := ⟨0,h 0⟩

theorem Returns.andThen {f : ℕ → Outcome σ ε α} {g : ℕ → α → σ → Outcome σ ε β} {a : α} {s : σ}
    {o : Except ε β × σ} (hf : Stable f) (hg : Stable fun n => g n a s)
    (h : Returns f (.ok a,s)) (h' : Returns (fun n => g n a s) o) :
    Returns (fun n => andThen (f n) (g n)) o := by
  obtain ⟨m,hm⟩ := h
  obtain ⟨n,hn⟩ := h'
  refine ⟨max m n,?_⟩
  have hfirst := hf.of_le (le_max_left m n) _ hm
  have hsecond := hg.of_le (le_max_right m n) _ hn
  simp only [hfirst]
  exact hsecond

theorem Returns.andThen_error {f : ℕ → Outcome σ ε α} {g : ℕ → α → σ → Outcome σ ε β} {e : ε} {s : σ}
    (h : Returns f (.error e,s)) : Returns (fun n => Fueled.andThen (f n) (g n)) (.error e,s) := by
  obtain ⟨n,hn⟩ := h
  refine ⟨n,?_⟩
  simp only [hn]
  rfl

/-- A decided run of a stable procedure has the outcome that the procedure returns. -/
theorem Returns.unique {f : ℕ → Outcome σ ε α} {o o' : Except ε α × σ} {n : ℕ} (hf : Stable f)
    (h : Returns f o) (hn : f n = some o') : o = o' := by
  obtain ⟨m,hm⟩ := h
  have hleft := hf.of_le (le_max_left m n) _ hm
  have hright := hf.of_le (le_max_right m n) _ hn
  exact Option.some.inj (hleft.symm.trans hright)

theorem andThen_ne_none {r : Outcome σ ε α} {f : α → σ → Outcome σ ε β} (hr : r ≠ none)
    (hf : ∀ a s, r = some (.ok a,s) → f a s ≠ none) : andThen r f ≠ none := by
  rcases r with _ | ⟨_ | a,s⟩
  · exact absurd rfl hr
  · simp [andThen]
  · exact hf a s rfl

theorem ne_none_of_stays {r : Outcome σ ε α} {s : σ} (h : ∃ o, r = some (o,s)) : r ≠ none := by
  obtain ⟨o,rfl⟩ := h
  simp

/-- Every outcome of a run from this state leaves a related state behind. -/
def Moves (R : σ → σ → Prop) (s : σ) (r : Outcome σ ε α) : Prop := ∀ o t, r = some (o,t) → R s t

section Moves
variable {R : σ → σ → Prop}

theorem moves_of_eq_none {s : σ} {r : Outcome σ ε α} (h : r = none) : Moves R s r := by
  intro o t ho
  rw [h] at ho
  cases ho

theorem moves_some {s t : σ} (h : R s t) (o : Except ε α) : Moves R s (some (o,t)) := by
  intro o' t' heq
  cases heq
  exact h

theorem moves_of_stays {s t : σ} {r : Outcome σ ε α} (h : R s t) (hr : ∃ o, r = some (o,t)) :
    Moves R s r := by
  obtain ⟨o,rfl⟩ := hr
  exact moves_some h o

theorem Moves.andThen {s : σ} {r : Outcome σ ε α} {f : α → σ → Outcome σ ε β} (h : Moves R s r)
    (hf : ∀ a t, R s t → Moves R s (f a t)) : Moves R s (andThen r f) := by
  rcases r with _ | ⟨_ | a,t⟩
  · exact moves_of_eq_none rfl
  · exact moves_some (h _ _ rfl) _
  · exact hf a t (h _ _ rfl)

theorem Moves.from [IsTrans σ R] {s t : σ} {r : Outcome σ ε α} (h : Moves R t r) (hst : R s t) :
    Moves R s r := fun o u heq => trans_of R hst (h o u heq)

end Moves

end Fueled
end EnosKernel
