import Mathlib.Tactic

/-! Searching a table of `n` places in cyclic order from a place on.  Distances are counted
forward and lie between 1 and `n`, so a place is at distance `n` from itself. -/
namespace EnosKernel
namespace CyclicScan

/-- Steps forward from `i` to `j`. -/
def ahead (n i j : ℕ) : ℕ := if i < j then j-i else j+n-i

/-- The first of the next `n` places that `p` accepts. -/
def scan (n start : ℕ) (p : ℕ → Bool) : Option ℕ :=
  ((List.range' 1 n).map fun offset => (start+offset) % n).find? p

variable {n i j k start : ℕ} {p : ℕ → Bool}

theorem ahead_pos (hi : i < n) : 1 ≤ ahead n i j := by
  unfold ahead
  split_ifs <;> omega

theorem ahead_le (hj : j < n) : ahead n i j ≤ n := by
  unfold ahead
  split_ifs <;> omega

theorem add_ahead (hi : i < n) (hj : j < n) : (i+ahead n i j) % n = j := by
  unfold ahead
  split_ifs with h
  · rw [Nat.add_sub_cancel' h.le,Nat.mod_eq_of_lt hj]
  · rw [show i+(j+n-i) = j+n by omega,Nat.add_mod_right,Nat.mod_eq_of_lt hj]

theorem ahead_add (hi : i < n) (hk : 1 ≤ k) (hkn : k ≤ n) : ahead n i ((i+k) % n) = k := by
  unfold ahead
  by_cases hwrap : i+k < n
  · rw [Nat.mod_eq_of_lt hwrap]
    split_ifs <;> omega
  · rw [Nat.mod_eq_sub_mod (by omega),Nat.mod_eq_of_lt (by omega)]
    split_ifs <;> omega

theorem ahead_trans (hi : i < n) (hj : j < n) (hk : k < n) (h : ahead n i j < ahead n i k) :
    ahead n i j+ahead n j k = ahead n i k := by
  unfold ahead at *
  split_ifs at * <;> omega

theorem scan_eq_some (hstart : start < n) : scan n start p = some j ↔
    j < n ∧ p j = true ∧ ∀ k < n, ahead n start k < ahead n start j → p k = false := by
  unfold scan
  rw [List.find?_map,Option.map_eq_some_iff]
  constructor
  · rintro ⟨offset,hfind,rfl⟩
    obtain ⟨hp,hmem,hbefore⟩ := List.find?_range'_eq_some.mp hfind
    have hrange := List.mem_range'_1.mp hmem
    refine ⟨Nat.mod_lt _ (by omega),hp,?_⟩
    intro k hk hlt
    rw [ahead_add hstart hrange.1 (by omega)] at hlt
    have hnot := hbefore (ahead n start k) (ahead_pos hstart) hlt
    simpa [add_ahead hstart hk] using hnot
  · rintro ⟨hj,hp,hbefore⟩
    refine ⟨ahead n start j,List.find?_range'_eq_some.mpr ⟨?_,?_,?_⟩,add_ahead hstart hj⟩
    · simpa [add_ahead hstart hj] using hp
    · have hpos := ahead_pos (j := j) hstart
      have hle := ahead_le (i := start) hj
      exact List.mem_range'_1.mpr ⟨hpos,by omega⟩
    · intro k hk hlt
      have hle := ahead_le (i := start) hj
      have hnot := hbefore ((start+k) % n) (Nat.mod_lt _ (by omega))
        (by rw [ahead_add hstart hk (by omega)]; exact hlt)
      simpa using hnot

theorem scan_isSome (hstart : start < n) (hj : j < n) (hp : p j = true) : ∃ k, scan n start p = some k := by
  rw [← Option.isSome_iff_exists,scan,List.find?_isSome]
  refine ⟨j,List.mem_map.mpr ⟨ahead n start j,?_,add_ahead hstart hj⟩,hp⟩
  have hpos := ahead_pos (j := j) hstart
  have hle := ahead_le (i := start) hj
  exact List.mem_range'_1.mpr ⟨hpos,by omega⟩

/-- A scan stops at an accepted place or at one before it, which is then nearer to it. -/
theorem scan_nearer (hstart : start < n) (hk : k < n) (hp : p k = true) (h : scan n start p = some j) :
    j = k ∨ ahead n j k < ahead n start k := by
  obtain ⟨hj,-,hfirst⟩ := (scan_eq_some hstart).mp h
  rcases lt_trichotomy (ahead n start j) (ahead n start k) with hlt | heq | hgt
  · have htrans := ahead_trans hstart hj hk hlt
    have hpos := ahead_pos (j := j) hstart
    exact Or.inr (by omega)
  · left
    rw [← add_ahead hstart hj,heq,add_ahead hstart hk]
  · have := hfirst k hk hgt
    simp [hp] at this

def shift (removed i : ℕ) : ℕ := if removed < i then i-1 else i

/-- Taking a place out brings no two others further apart. -/
theorem ahead_shift {r : ℕ} (hi : i < n) (hj : j < n) (hr : r < n) (hri : r ≠ i) (hrj : r ≠ j) :
    ahead (n-1) (shift r i) (shift r j) ≤ ahead n i j := by
  unfold ahead shift
  split_ifs <;> omega

theorem ahead_succ (hi : i < n) : ahead (n+1) i j ≤ ahead n i j+1 := by
  unfold ahead
  split_ifs <;> omega

end CyclicScan

/-- A table whose rows take turns in cyclic order, and the place of the row whose turn it is. -/
structure Ring (α : Type*) where
  rows : List α
  place : ℕ

namespace Ring

open CyclicScan

variable {α : Type*} {r next : Ring α} {k idx : ℕ} {a : α} {ready : α → Bool}

def push (r : Ring α) (a : α) : Ring α := { r with rows := r.rows++[a] }

def set (r : Ring α) (a : α) : Ring α := { r with rows := r.rows.set r.place a }

def map (f : α → α) (r : Ring α) : Ring α := { r with rows := r.rows.map f }

def drop (r : Ring α) (idx : ℕ) : Ring α where
  rows := r.rows.eraseIdx idx
  place := shift idx r.place

/-- Take out the row whose turn it is; the place then is that of its successor. -/
def dropCurrent (r : Ring α) : Ring α where
  rows := r.rows.eraseIdx r.place
  place := if (r.rows.eraseIdx r.place).length ≤ r.place then 0 else r.place

def readyAt (r : Ring α) (ready : α → Bool) (idx : ℕ) : Bool := r.rows[idx]?.any ready

/-- Give the turn to the next ready row. -/
def advance (ready : α → Bool) (r : Ring α) : Option (Ring α) :=
  (scan r.rows.length r.place (r.readyAt ready)).map fun idx => { r with place := idx }

/-- Steps until the row at `k` has its turn, if every row in between is ready. -/
def distance (r : Ring α) (k : ℕ) : ℕ := ahead r.rows.length r.place k

theorem readyAt_of_getElem? (hk : r.rows[k]? = some a) (ha : ready a = true) :
    r.readyAt ready k = true := by simp [readyAt,hk,ha]

theorem advance_ready (h : r.advance ready = some next) :
    next.rows = r.rows ∧ ∃ a, next.rows[next.place]? = some a ∧ ready a = true := by
  obtain ⟨idx,hscan,rfl⟩ := Option.map_eq_some_iff.mp h
  have haccepted : r.readyAt ready idx = true := List.find?_some hscan
  simp only [readyAt,Option.any_eq_true] at haccepted
  exact ⟨rfl,haccepted⟩

/-- A ready row gets the turn or comes nearer to it. -/
theorem advance_nearer (h : r.advance ready = some next) (hplace : r.place < r.rows.length)
    (hk : r.rows[k]? = some a) (ha : ready a = true) :
    next.place = k ∨ next.distance k < r.distance k := by
  obtain ⟨idx,hscan,rfl⟩ := Option.map_eq_some_iff.mp h
  exact scan_nearer hplace (List.getElem?_eq_some_iff.mp hk).1 (readyAt_of_getElem? hk ha) hscan

theorem distance_le (r : Ring α) (hk : r.rows[k]? = some a) : r.distance k ≤ r.rows.length :=
  ahead_le (List.getElem?_eq_some_iff.mp hk).1

theorem distance_pos (hplace : r.place < r.rows.length) (k : ℕ) : 1 ≤ r.distance k := ahead_pos hplace

theorem getElem?_push (hk : r.rows[k]? = some a) (b : α) : (r.push b).rows[k]? = some a := by
  rw [push,List.getElem?_append_left (List.getElem?_eq_some_iff.mp hk).1]
  exact hk

theorem distance_push (hplace : r.place < r.rows.length) (a : α) (k : ℕ) :
    (r.push a).distance k ≤ r.distance k+1 := by
  simpa [distance,push] using ahead_succ hplace

theorem getElem?_set (r : Ring α) (a : α) (hne : r.place ≠ k) : (r.set a).rows[k]? = r.rows[k]? := by
  simp [set,List.getElem?_set_ne hne]

@[simp] theorem distance_set (r : Ring α) (a : α) (k : ℕ) : (r.set a).distance k = r.distance k := by
  simp [distance,set]

@[simp] theorem distance_map (r : Ring α) (f : α → α) (k : ℕ) : (r.map f).distance k = r.distance k := by
  simp [distance,map]

theorem getElem?_eraseIdx_shift (rows : List α) (hne : idx ≠ k) :
    (rows.eraseIdx idx)[shift idx k]? = rows[k]? := by
  rw [List.getElem?_eraseIdx]
  unfold shift
  split_ifs with h₁ h₂ h₂
  · omega
  · congr 1
    omega
  · rfl
  · omega

theorem distance_drop (hplace : r.place < r.rows.length) (hk : r.rows[k]? = some a)
    (hidx : idx < r.rows.length) (hne : idx ≠ r.place) (hne' : idx ≠ k) :
    (r.drop idx).distance (shift idx k) ≤ r.distance k := by
  have hlength : (r.drop idx).rows.length = r.rows.length-1 := List.length_eraseIdx_of_lt hidx
  rw [distance,hlength]
  exact ahead_shift hplace (List.getElem?_eq_some_iff.mp hk).1 hidx hne hne'

end Ring
end EnosKernel
