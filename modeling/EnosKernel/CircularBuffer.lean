import Mathlib.Tactic

/-! Reading a circular array as a list.  The array is given by its cells; a window of `len`
cells starts at `head` and goes around the end. -/
namespace EnosKernel
namespace CircularBuffer

variable {α : Type*} {c head len : ℕ}

def window (cells : ℕ → α) (c head len : ℕ) : List α :=
  (List.range len).map fun i => cells ((head+i) % c)

@[simp] theorem length_window (cells : ℕ → α) (c head len : ℕ) :
    (window cells c head len).length = len := by simp [window]

@[simp] theorem window_zero (cells : ℕ → α) (c head : ℕ) : window cells c head 0 = [] := rfl

theorem offset_ne {i : ℕ} (hi : i < len) (hlen : len < c) : (head+i) % c ≠ (head+len) % c := by
  intro heq
  have hdvd : c ∣ (head+len)-(head+i) := (Nat.modEq_iff_dvd' (by omega)).mp heq
  have hle := Nat.le_of_dvd (by omega) hdvd
  omega

theorem next_end : ((head+len) % c+1) % c = (head+(len+1)) % c := by
  rw [Nat.mod_add_mod,Nat.add_assoc]

theorem next_start : ((head+1) % c+len) % c = (head+(len+1)) % c := by
  rw [Nat.mod_add_mod,Nat.add_assoc,Nat.add_comm 1]

theorem window_push (cells : ℕ → α) (a : α) (hlen : len < c) :
    window (Function.update cells ((head+len) % c) a) c head (len+1) = window cells c head len++[a] := by
  simp only [window,List.range_succ,List.map_append,List.map_cons,List.map_nil,Function.update_self]
  congr 1
  apply List.map_congr_left
  intro i hi
  exact Function.update_of_ne (offset_ne (List.mem_range.mp hi) hlen) _ _

theorem window_pop (cells : ℕ → α) (hhead : head < c) :
    window cells c head (len+1) = cells head::window cells c ((head+1) % c) len := by
  simp only [window,List.range_succ_eq_map,List.map_cons,List.map_map,Nat.add_zero,Nat.mod_eq_of_lt hhead]
  congr 1
  apply List.map_congr_left
  intro i _
  simp only [Function.comp_apply,next_start,Nat.succ_eq_add_one]

end CircularBuffer
end EnosKernel
