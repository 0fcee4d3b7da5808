import Mathlib.Tactic
import Mathlib.Logic.Relation

/-! Finite runs of a labelled step relation.  A run is the list of labels taken and
states entered; what holds of a whole run is reduced here, once, to what holds of
one step. -/
namespace EnosKernel
namespace Runs

variable {σ α : Type*}

/-- Every step of the path that starts in `s` satisfies `Q`. -/
def Along (Q : σ → α → σ → Prop) : σ → List (α × σ) → Prop
  | _, [] => True
  | s, (a,t)::path => Q s a t ∧ Along Q t path

/-- The state in which a path ends. -/
def final : σ → List (α × σ) → σ
  | s, [] => s
  | _, (_,t)::path => final t path

/-- `t` is entered by some finite run from `s`. -/
def Reachable (step : σ → α → σ → Prop) : σ → σ → Prop :=
  Relation.ReflTransGen (fun s t => ∃ a, step s a t)

theorem along_append {Q : σ → α → σ → Prop} {s : σ} {first second : List (α × σ)} :
    Along Q s (first++second) ↔ Along Q s first ∧ Along Q (final s first) second := by
  induction first generalizing s with
  | nil => simp [Along,final]
  | cons e first ih => simp [Along,final,ih,and_assoc]

theorem Along.of_mem {P : σ → Prop} {s : σ} {path : List (α × σ)}
    (h : Along (fun _ _ t => P t) s path) {e : α × σ} (he : e ∈ path) : P e.2 := by
  induction path generalizing s with
  | nil => simp at he
  | cons first path ih =>
    rcases List.mem_cons.mp he with rfl | he
    · exact h.1
    · exact ih h.2 he

def count (Q : σ → α → Prop) [∀ s a, Decidable (Q s a)] : σ → List (α × σ) → ℕ
  | _, [] => 0
  | s, (a,t)::path => (if Q s a then 1 else 0)+count Q t path

theorem sum_count_le {ι : Type*} [DecidableEq ι] {Q : ι → σ → α → Prop} [∀ i s a, Decidable (Q i s a)]
    {R : σ → α → Prop} [∀ s a, Decidable (R s a)] (owner : σ → ι)
    (howner : ∀ i s a, Q i s a → owner s = i) (hR : ∀ i s a, Q i s a → R s a)
    {is : List ι} (hnodup : is.Nodup) (s : σ) (path : List (α × σ)) :
    (is.map fun i => count (Q i) s path).sum ≤ count R s path := by
  induction path generalizing s with
  | nil => simp [count]
  | cons e path ih =>
    simp only [count,List.sum_map_add]
    refine Nat.add_le_add ?_ (ih _)
    by_cases hR' : R s e.1
    · rw [if_pos hR',← List.sum_toFinset _ hnodup]
      calc ∑ i ∈ is.toFinset, (if Q i s e.1 then 1 else 0)
          ≤ ∑ i ∈ is.toFinset, if owner s = i then 1 else 0 := by
            refine Finset.sum_le_sum fun i _ => ?_
            by_cases hq : Q i s e.1
            · simp [hq,howner i s e.1 hq]
            · simp [hq]
        _ ≤ 1 := by
            rw [Finset.sum_ite_eq]
            split_ifs <;> omega
    · have hnone : ∀ i, ¬ Q i s e.1 := fun i hq => hR' (hR i s e.1 hq)
      simp [hnone,hR']

variable {step : σ → α → σ → Prop} {I : σ → Prop} {s t : σ}

theorem Along.reachable {path : List (α × σ)} (hp : Along step s path) :
    Reachable step s (final s path) := by
  induction path generalizing s with
  | nil => exact Relation.ReflTransGen.refl
  | cons e path ih => exact Relation.ReflTransGen.head ⟨_,hp.1⟩ (ih hp.2)

theorem Reachable.invariant (hstep : ∀ s a t, I s → step s a t → I t) (hs : I s)
    (h : Reachable step s t) : I t := by
  induction h with
  | refl => exact hs
  | tail _ hlast ih =>
    obtain ⟨a,ha⟩ := hlast
    exact hstep _ a _ ih ha

/-- `t` is entered from `s` by steps of one label. -/
def Repeats (step : σ → α → σ → Prop) (a : α) : σ → σ → Prop := Relation.ReflTransGen fun s t => step s a t

theorem Repeats.reachable {a : α} (h : Repeats step a s t) : Reachable step s t :=
  Relation.ReflTransGen.lift id (fun _ _ hstep => ⟨a,hstep⟩) _ _ h

theorem Repeats.invariant {a : α} (hstep : ∀ s t, I s → step s a t → I t) (hs : I s) (h : Repeats step a s t) :
    I t := by
  induction h with
  | refl => exact hs
  | tail _ hlast ih => exact hstep _ _ ih hlast

/-- What an invariant gives for one step, it gives for every step of a run. -/
theorem Along.of_invariant {Q : σ → α → σ → Prop} (hinv : ∀ s a t, I s → step s a t → I t)
    (hQ : ∀ s a t, I s → step s a t → Q s a t) (hs : I s) {path : List (α × σ)}
    (hp : Along step s path) : Along Q s path := by
  induction path generalizing s with
  | nil => trivial
  | cons e path ih => exact ⟨hQ _ _ _ hs hp.1,ih (hinv _ _ _ hs hp.1) hp.2⟩

theorem along_congr {P Q : σ → α → σ → Prop} (hinv : ∀ s a t, I s → step s a t → I t)
    (hiff : ∀ s a t, I s → step s a t → (P s a t ↔ Q s a t)) (hs : I s) {path : List (α × σ)}
    (hp : Along step s path) : Along P s path ↔ Along Q s path := by
  induction path generalizing s with
  | nil => exact Iff.rfl
  | cons e path ih => exact and_congr (hiff _ _ _ hs hp.1) (ih (hinv _ _ _ hs hp.1) hp.2)

/-- If a step ends in `P` exactly when it starts in `P` and meets a condition, a run does so
exactly when all of its steps meet the condition. -/
theorem final_iff {P : σ → Prop} {condition : σ → α → Prop} (hinv : ∀ s a t, I s → step s a t → I t)
    (hexact : ∀ s a t, I s → step s a t → (P t ↔ P s ∧ condition s a)) (hs : I s)
    {path : List (α × σ)} (hp : Along step s path) :
    P (final s path) ↔ P s ∧ Along (fun s a _ => condition s a) s path := by
  induction path generalizing s with
  | nil => simp [final,Along]
  | cons e path ih =>
    have hfirst := hexact _ _ _ hs hp.1
    have hrest := ih (hinv _ _ _ hs hp.1) hp.2
    simp only [final,Along]
    rw [hrest,hfirst,and_assoc]

theorem exists_path {ε : Type*} {f : σ → α → Except ε σ} {labels : List α} (h : labels.foldlM f s = .ok t) :
    ∃ path, Along (fun s a t => f s a = .ok t) s path ∧ final s path = t := by
  induction labels generalizing s with
  | nil =>
    cases h
    exact ⟨[],trivial,rfl⟩
  | cons a labels ih =>
    rw [List.foldlM_cons] at h
    cases hfirst : f s a with
    | error e =>
      rw [hfirst] at h
      cases h
    | ok u =>
      rw [hfirst] at h
      obtain ⟨path,hpath,hfinal⟩ := ih h
      exact ⟨(a,u)::path,⟨hfirst,hpath⟩,hfinal⟩

theorem exists_replicate {a : α} (hnext : ∀ s, I s → ∃ t, step s a t ∧ I t) (hs : I s) (n : ℕ) :
    ∃ path, path.map Prod.fst = List.replicate n a ∧ Along step s path := by
  induction n generalizing s with
  | zero => exact ⟨[],rfl,trivial⟩
  | succ n ih =>
    obtain ⟨t,hstep,ht⟩ := hnext s hs
    obtain ⟨path,hlabels,hpath⟩ := ih ht
    exact ⟨(a,t)::path,by rw [List.map_cons,hlabels,List.replicate_succ],hstep,hpath⟩

theorem leads_of_step {a : α} (hstep : step s a t) {P : σ → Prop}
    (h : ∃ u, Reachable step t u ∧ P u) : ∃ u, Reachable step s u ∧ P u := by
  obtain ⟨u,hreach,hu⟩ := h
  exact ⟨u,.head ⟨a,hstep⟩ hreach,hu⟩

end Runs
end EnosKernel
