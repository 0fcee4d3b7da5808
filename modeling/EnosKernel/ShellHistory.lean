import EnosKernel.MachineArith
import EnosKernel.RustStr

/-! The command history of `shell.rs`. -/
namespace EnosKernel
namespace Shell

def maxHistoryEntries : ℕ := 64

structure HistoryState where
  entries : List (List Char)
  index : Option ℕ
  draft : List Char
  deriving DecidableEq, Repr

namespace HistoryState

def new : HistoryState where
  entries := []
  index := none
  draft := []

def resetNavigation (h : HistoryState) : HistoryState := { h with index := none, draft := [] }

/-- The entries after a non-empty command: a repetition of the last one is not stored, and
the oldest one makes room. -/
def pushEntry (entries : List (List Char)) (command : List Char) : List (List Char) :=
  if entries.getLast? = some command then entries
  else (if maxHistoryEntries ≤ entries.length then entries.eraseIdx 0 else entries)++[command]

def record (h : HistoryState) (command : List Char) : HistoryState :=
  if command = [] then h.resetNavigation
  else resetNavigation { h with entries := pushEntry h.entries command }

/-- `self.entries[i].clone()`. -/
def entryAt (h : HistoryState) (i : ℕ) : Except Panic (List Char) :=
  match h.entries[i]? with
  | some entry => .ok entry
  | none => .error .indexOutOfBounds

def previous (h : HistoryState) (currentLine : List Char) : Except Panic (Option (List Char) × HistoryState) :=
  if h.entries = [] then .ok (none,h)
  else
    let h := match h.index with
      | none => { h with draft := currentLine, index := some (h.entries.length-1) }
      | some 0 => h
      | some (i+1) => { h with index := some i }
    match h.index with
    | none => .ok (none,h)
    | some i => do
      let entry ← h.entryAt i
      .ok (some entry,h)

def next (h : HistoryState) : Except Panic (Option (List Char) × HistoryState) :=
  match h.index with
  | none => .ok (none,h)
  | some index =>
    if index+1 < h.entries.length then do
      let h := { h with index := some (index+1) }
      let entry ← h.entryAt (index+1)
      .ok (some entry,h)
    else .ok (some h.draft,{ h with index := none })

def InRange (h : HistoryState) : Prop := ∀ i, h.index = some i → i < h.entries.length

/-- Where navigation stands: at an entry, or past the end. -/
def position (h : HistoryState) : ℕ := h.index.getD h.entries.length

variable {h : HistoryState}

theorem entryAt_eq {i : ℕ} (hi : i < h.entries.length) : h.entryAt i = .ok h.entries[i] := by
  rw [entryAt,List.getElem?_eq_getElem hi]

theorem InRange.position_le (hrange : h.InRange) : h.position ≤ h.entries.length := by
  cases hindex : h.index with
  | none => simp [position,hindex]
  | some i => simpa [position,hindex] using (hrange i hindex).le

theorem previous_eq (hrange : h.InRange) (hne : h.entries ≠ []) (currentLine : List Char) :
    ∃ entry, h.entries[h.position-1]? = some entry ∧ h.previous currentLine = .ok (some entry,{ h with
      index := some (h.position-1)
      draft := if h.index = none then currentLine else h.draft }) := by
  have hpos := List.length_pos_iff.mpr hne
  have hlt : h.position-1 < h.entries.length := by
    have := hrange.position_le
    omega
  refine ⟨h.entries[h.position-1],List.getElem?_eq_getElem hlt,?_⟩
  have hmoved : (match h.index with
      | none => { h with draft := currentLine, index := some (h.entries.length-1) }
      | some 0 => h
      | some (i+1) => { h with index := some i }) = { h with
        index := some (h.position-1)
        draft := if h.index = none then currentLine else h.draft } := by
    obtain ⟨entries,index,draft⟩ := h
    rcases index with _ | _ | i <;> rfl
  rw [previous,if_neg hne]
  simp only [hmoved]
  have hat (index : Option ℕ) (draft : List Char) :
      entryAt ⟨h.entries,index,draft⟩ (h.position-1) = .ok h.entries[h.position-1] :=
    entryAt_eq (h := ⟨h.entries,index,draft⟩) hlt
  rw [hat]
  rfl

theorem next_eq {i : ℕ} (hindex : h.index = some i) : h.next =
    if hi : i+1 < h.entries.length then .ok (some h.entries[i+1],{ h with index := some (i+1) })
    else .ok (some h.draft,{ h with index := none }) := by
  rw [next,hindex]
  dsimp only
  split_ifs with hlast
  · rw [entryAt_eq (h := { h with index := some (i+1) }) hlast]
    rfl
  · rfl

end HistoryState
end Shell
end EnosKernel
