import Mathlib.Tactic

/-! A `for` loop over a range of numbers whose body may fail, and the rule that carries an
invariant through it. -/
namespace EnosKernel
namespace ForLoop

variable {ε β : Type*}

def forRange (lo hi : ℕ) (body : ℕ → β → Except ε β) (init : β) : Except ε β :=
  (List.range' lo (hi-lo)).foldlM (fun state i => body i state) init

theorem foldlM_range'_ok {body : ℕ → β → Except ε β} {P : ℕ → β → Prop} (count : ℕ) {lo : ℕ} {init : β}
    (hinit : P lo init) (hstep : ∀ i state, lo ≤ i → i < lo+count → P i state →
      ∃ next, body i state = .ok next ∧ P (i+1) next) :
    ∃ last, (List.range' lo count).foldlM (fun state i => body i state) init = .ok last ∧
      P (lo+count) last := by
  induction count generalizing lo init with
  | zero => exact ⟨init,rfl,hinit⟩
  | succ count ih =>
    obtain ⟨next,hbody,hnext⟩ := hstep lo init le_rfl (by omega) hinit
    obtain ⟨last,hrest,hlast⟩ := ih hnext fun i state hlo hhi => hstep i state (by omega) (by omega)
    refine ⟨last,?_,by rwa [show lo+(count+1) = lo+1+count by omega]⟩
    rw [List.range'_succ,List.foldlM_cons,hbody]
    exact hrest

/-- A body that never fails from a state of the invariant and advances it makes the loop
return, with the invariant at the end of the range. -/
theorem forRange_ok {body : ℕ → β → Except ε β} {P : ℕ → β → Prop} {lo hi : ℕ} (hle : lo ≤ hi) {init : β}
    (hinit : P lo init) (hstep : ∀ i state, lo ≤ i → i < hi → P i state →
      ∃ next, body i state = .ok next ∧ P (i+1) next) :
    ∃ last, forRange lo hi body init = .ok last ∧ P hi last := by
  have hcount : lo+(hi-lo) = hi := by omega
  obtain ⟨last,hloop,hlast⟩ := foldlM_range'_ok (P := P) (hi-lo) hinit
    fun i state hlo hhi => hstep i state hlo (by omega)
  exact ⟨last,hloop,hcount ▸ hlast⟩

end ForLoop
end EnosKernel
