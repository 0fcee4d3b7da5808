import EnosKernel.ShellHistory
import Mathlib.Data.List.Destutter

/-! What the history holds: the last entries of all recorded commands, with runs of equal
ones collapsed.  The collapsed list is never stored; it is what the entries are a window
of. -/
namespace EnosKernel
namespace Shell

section Collapse

variable {α : Type*} [DecidableEq α]

theorem destutter'_concat (a b : α) (l : List α) : (l++[b]).destutter' (· ≠ ·) a =
    if (l.destutter' (· ≠ ·) a).getLast? = some b then l.destutter' (· ≠ ·) a
    else l.destutter' (· ≠ ·) a++[b] := by
  induction l generalizing a with
  | nil => by_cases h : a = b <;> simp [List.destutter',h]
  | cons c l ih =>
    obtain ⟨d,kept,hkept⟩ := List.exists_cons_of_ne_nil (List.destutter'_ne_nil (l := l) (a := c) (· ≠ ·))
    by_cases h : a ≠ c
    · rw [List.cons_append,List.destutter'_cons_pos _ h,List.destutter'_cons_pos _ h,ih,hkept,
        List.getLast?_cons_cons]
      split_ifs <;> rfl
    · rw [List.cons_append,List.destutter'_cons_neg _ h,List.destutter'_cons_neg _ h,ih]

theorem destutter_concat (l : List α) (b : α) : (l++[b]).destutter (· ≠ ·) =
    if (l.destutter (· ≠ ·)).getLast? = some b then l.destutter (· ≠ ·) else l.destutter (· ≠ ·)++[b] := by
  cases l with
  | nil => simp
  | cons a l => exact destutter'_concat a b l

omit [DecidableEq α] in
theorem rtake_concat (l : List α) (b : α) (n : ℕ) : (l++[b]).rtake (n+1) =
    (if n+1 ≤ (l.rtake (n+1)).length then (l.rtake (n+1)).eraseIdx 0 else l.rtake (n+1))++[b] := by
  rw [List.rtake_concat_succ]
  simp only [List.rtake,List.length_drop,List.eraseIdx_zero,List.tail_drop,List.append_cancel_right_eq]
  split_ifs with hfull
  · congr 1
    omega
  · rw [Nat.sub_eq_zero_of_le (by omega),Nat.sub_eq_zero_of_le (by omega)]

omit [DecidableEq α] in
theorem getLast?_rtake (l : List α) (n : ℕ) : (l.rtake (n+1)).getLast? = l.getLast? := by
  cases l using List.reverseRecOn with
  | nil => simp [List.rtake]
  | append_singleton l b => rw [List.rtake_concat_succ,List.getLast?_concat,List.getLast?_concat]

end Collapse

namespace HistoryState

theorem pushEntry_rtake (commands : List (List Char)) (command : List Char) :
    pushEntry ((commands.destutter (· ≠ ·)).rtake maxHistoryEntries) command =
      ((commands++[command]).destutter (· ≠ ·)).rtake maxHistoryEntries := by
  rw [pushEntry,show maxHistoryEntries = 63+1 from rfl,getLast?_rtake,destutter_concat]
  split_ifs with hlast hfull
  · rfl
  · rw [rtake_concat,if_pos hfull]
  · rw [rtake_concat,if_neg hfull]

inductive Call
  | record (command : List Char)
  | previous (currentLine : List Char)
  | next
  | resetNavigation
  deriving DecidableEq, Repr

def call (h : HistoryState) : Call → Except Panic HistoryState
  | .record command => .ok (h.record command)
  | .previous currentLine => Prod.snd <$> h.previous currentLine
  | .next => Prod.snd <$> h.next
  | .resetNavigation => .ok h.resetNavigation

def run (h : HistoryState) (calls : List Call) : Except Panic HistoryState := calls.foldlM call h

def recorded (calls : List Call) : List (List Char) :=
  calls.filterMap fun
    | .record command => if command = [] then none else some command
    | _ => none

/-- The entries are what is left of `commands`, and the index designates one of them. -/
structure Holds (commands : List (List Char)) (h : HistoryState) : Prop where
  entries : h.entries = (commands.destutter (· ≠ ·)).rtake maxHistoryEntries
  inRange : h.InRange

namespace Holds

variable {commands : List (List Char)} {h : HistoryState}

theorem new : Holds [] new := ⟨rfl,by simp [InRange,HistoryState.new]⟩

theorem resetNavigation (hh : Holds commands h) : Holds commands h.resetNavigation :=
  ⟨hh.entries,by simp [InRange,HistoryState.resetNavigation]⟩

theorem record (hh : Holds commands h) (command : List Char) :
    Holds (commands++recorded [.record command]) (h.record command) ∧ (h.record command).index = none := by
  unfold HistoryState.record
  split_ifs with hempty
  · refine ⟨?_,rfl⟩
    simpa [recorded,hempty] using hh.resetNavigation
  · have hpushed : Holds (commands++recorded [.record command])
        (HistoryState.resetNavigation { h with entries := pushEntry h.entries command }) := by
      refine ⟨?_,by simp [InRange,HistoryState.resetNavigation]⟩
      simp only [HistoryState.resetNavigation,recorded,List.filterMap_cons,hempty,List.filterMap_nil,if_false]
      rw [hh.entries,pushEntry_rtake]
    exact ⟨hpushed,rfl⟩

theorem previous (hh : Holds commands h) (line : List Char) :
    ∃ t, h.call (.previous line) = .ok t ∧ Holds commands t := by
  by_cases hne : h.entries = []
  · exact ⟨h,by rw [HistoryState.call,HistoryState.previous,if_pos hne]; rfl,hh⟩
  · obtain ⟨entry,hentry,hcall⟩ := previous_eq hh.inRange hne line
    refine ⟨{ h with
      index := some (h.position-1)
      draft := if h.index = none then line else h.draft },by rw [HistoryState.call,hcall]; rfl,hh.entries,?_⟩
    rintro i ⟨⟩
    exact (List.getElem?_eq_some_iff.mp hentry).1

theorem next (hh : Holds commands h) : ∃ t, h.call .next = .ok t ∧ Holds commands t := by
  cases hindex : h.index with
  | none => exact ⟨h,by rw [HistoryState.call,HistoryState.next,hindex]; rfl,hh⟩
  | some i =>
    rw [HistoryState.call,next_eq hindex]
    split_ifs with hlast
    · exact ⟨{ h with index := some (i+1) },rfl,hh.entries,by rintro j ⟨⟩; exact hlast⟩
    · exact ⟨{ h with index := none },rfl,hh.entries,by rintro j ⟨⟩⟩

theorem call (hh : Holds commands h) (call : Call) :
    ∃ t, h.call call = .ok t ∧ Holds (commands++recorded [call]) t := by
  cases call with
  | record command => exact ⟨_,rfl,(hh.record command).1⟩
  | previous line => simpa [recorded] using hh.previous line
  | next => simpa [recorded] using hh.next
  | resetNavigation => exact ⟨_,rfl,by simpa [recorded] using hh.resetNavigation⟩

theorem run (hh : Holds commands h) (calls : List Call) :
    ∃ t, h.run calls = .ok t ∧ Holds (commands++recorded calls) t := by
  induction calls generalizing commands h with
  | nil => exact ⟨h,rfl,by simpa [recorded] using hh⟩
  | cons first calls ih =>
    obtain ⟨u,hfirst,hu⟩ := hh.call first
    obtain ⟨t,hrest,ht⟩ := ih hu
    have hsplit : recorded (first::calls) = recorded [first]++recorded calls :=
      List.filterMap_append (l := [first])
    refine ⟨t,?_,?_⟩
    · rw [HistoryState.run,List.foldlM_cons,hfirst]
      exact hrest
    · rwa [hsplit,← List.append_assoc]

end Holds

/-- After any calls on a fresh history the entries are the last 64 of the recorded non-empty
commands with repetitions collapsed, the index designates an entry, and no call panicked;
a recording leaves no index. -/
theorem history_contents (calls : List Call) : ∃ h, new.run calls = .ok h ∧
    h.entries = ((recorded calls).destutter (· ≠ ·)).rtake 64 ∧
    (∀ i, h.index = some i → i < h.entries.length) ∧
    ∀ earlier command, calls = earlier++[.record command] → h.index = none := by
  obtain ⟨h,hrun,hholds⟩ := Holds.new.run calls
  refine ⟨h,hrun,hholds.entries,hholds.inRange,?_⟩
  rintro earlier command rfl
  obtain ⟨u,hearlier,hu⟩ := Holds.new.run earlier
  have hlast : new.run (earlier++[.record command]) = .ok (u.record command) := by
    simp only [run] at hearlier
    rw [run,List.foldlM_append,hearlier]
    rfl
  rw [← Except.ok.inj (hlast.symm.trans hrun)]
  exact (hu.record command).2

end HistoryState
end Shell
end EnosKernel
