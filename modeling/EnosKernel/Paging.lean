import EnosKernel.MachineArith
import EnosKernel.BitFields

/-! The page tables of `paging.rs` as `init` fills them, the two-level translation of the
processor through them, and the pointer check of `syscall.rs`. -/
namespace EnosKernel
namespace Paging

open MachineArith

def pagePresent : UInt32 := 0x01
def pageRw : UInt32 := 0x02
def pageUser : UInt32 := 0x04
def entriesPerTable : ℕ := 1024

def userSpaceStart : UInt32 := 0x00400000
def userSpaceEnd : UInt32 := 0x00800000

/-- The physical addresses at which the linker places the three tables. -/
structure Placement where
  directory : UInt32
  table0 : UInt32
  table1 : UInt32
  directory_aligned : 4096 ∣ directory.toNat
  table0_aligned : 4096 ∣ table0.toNat
  table1_aligned : 4096 ∣ table1.toNat
  table0_ne_directory : table0 ≠ directory
  table1_ne_directory : table1 ≠ directory
  table1_ne_table0 : table1 ≠ table0

example : Nonempty Placement :=
  ⟨⟨0x00120000,0x00121000,0x00122000,by decide,by decide,by decide,by decide,by decide,by decide⟩⟩

structure PageTables where
  directory : List UInt32
  table0 : List UInt32
  table1 : List UInt32

def PageTables.zero : PageTables :=
  ⟨List.replicate entriesPerTable 0,List.replicate entriesPerTable 0,List.replicate entriesPerTable 0⟩

/-- `for i in 0..n` storing `entry i` at index `i`. -/
def fillEntries (entry : ℕ → UInt32) (n : ℕ) (table : List UInt32) : List UInt32 :=
  (List.range n).foldl (fun table i => table.set i (entry i)) table

def table0Entry (i : ℕ) : UInt32 := UInt32.ofNat (i*4096) ||| pagePresent ||| pageRw

def table1Entry (i : ℕ) : UInt32 :=
  (userSpaceStart+UInt32.ofNat (i*4096)) ||| pagePresent ||| pageRw ||| pageUser

def init (place : Placement) (t : PageTables) : PageTables where
  table0 := fillEntries table0Entry entriesPerTable t.table0
  table1 := fillEntries table1Entry entriesPerTable t.table1
  directory := (t.directory.set 0 (place.table0 ||| pagePresent ||| pageRw)).set 1
    (place.table1 ||| pagePresent ||| pageRw ||| pageUser)

def tableAt (place : Placement) (t : PageTables) (addr : UInt32) : Option (List UInt32) :=
  if addr = place.directory then some t.directory
  else if addr = place.table0 then some t.table0
  else if addr = place.table1 then some t.table1
  else none

structure Translation where
  physical : UInt32
  user : Bool
  deriving DecidableEq, Repr

def frameBase (entry : UInt32) : UInt32 := entry &&& 0xFFFFF000

def hasFlag (entry flag : UInt32) : Bool := entry &&& flag != 0

/-- The walk from the directory: ten bits, ten bits, and a twelve-bit offset. -/
def walk (place : Placement) (t : PageTables) (a : UInt32) : Option Translation := do
  let directory ← tableAt place t place.directory
  let pde ← directory[(a >>> 22).toNat]?
  guard (hasFlag pde pagePresent)
  let table ← tableAt place t (frameBase pde)
  let pte ← table[((a >>> 12) &&& 0x3FF).toNat]?
  guard (hasFlag pte pagePresent)
  pure ⟨frameBase pte ||| (a &&& 0xFFF),hasFlag pde pageUser && hasFlag pte pageUser⟩

def userRangeContains (ptr len : UInt32) : Bool :=
  if len = 0 then false
  else match checkedAdd 32 ptr.toNat len.toNat with
    | none => false
    | some last => userSpaceStart.toNat ≤ ptr.toNat && last ≤ userSpaceEnd.toNat && ptr.toNat < last

def maxPrintLen : ℕ := 1024
def errInvalidPointer : UInt32 := 1
def errInvalidLength : UInt32 := 2

def validateUserBuffer (ptr len : UInt32) : Except UInt32 (UInt32 × UInt32) :=
  if len = 0 ∨ maxPrintLen < len.toNat then .error errInvalidLength
  else if ¬ userRangeContains ptr len then .error errInvalidPointer
  else .ok (ptr,len)

theorem fillEntries_succ (entry : ℕ → UInt32) (n : ℕ) (table : List UInt32) :
    fillEntries entry (n+1) table = (fillEntries entry n table).set n (entry n) := by
  simp [fillEntries,List.range_succ]

theorem fillEntries_length (entry : ℕ → UInt32) (n : ℕ) (table : List UInt32) :
    (fillEntries entry n table).length = table.length := by
  induction n with
  | zero => rfl
  | succ n ih => rw [fillEntries_succ,List.length_set,ih]

theorem fillEntries_getElem? (entry : ℕ → UInt32) {n : ℕ} {table : List UInt32}
    (hn : n ≤ table.length) {i : ℕ} (hi : i < n) :
    (fillEntries entry n table)[i]? = some (entry i) := by
  induction n with
  | zero => omega
  | succ n ih =>
    rw [fillEntries_succ,List.getElem?_set,fillEntries_length]
    by_cases h : n = i
    · simp [h]
      omega
    · rw [if_neg h]
      exact ih (by omega) (by omega)

theorem flagged_toNat {p flags : UInt32} {k : ℕ} (hp : p.toNat = 2^12*k) :
    (p ||| flags).toNat = 2^12*k ||| flags.toNat := by rw [UInt32.toNat_or,hp]

theorem frameBase_flagged {p flags : UInt32} (hp : 4096 ∣ p.toNat) (hf : flags.toNat < 2^12) :
    frameBase (p ||| flags) = p := by
  obtain ⟨k,hk⟩ := hp
  have hlt := p.toNat_lt
  apply UInt32.toNat_inj.mp
  rw [frameBase,UInt32.toNat_and,flagged_toNat hk,hk]
  exact BitFields.and_highMask (m := 20) (by omega) hf

theorem hasFlag_flagged {p flags flag : UInt32} (hp : 4096 ∣ p.toNat) (hflag : flag.toNat < 2^12) :
    hasFlag (p ||| flags) flag = hasFlag flags flag := by
  obtain ⟨k,hk⟩ := hp
  have hand : (p ||| flags) &&& flag = flags &&& flag := by
    apply UInt32.toNat_inj.mp
    rw [UInt32.toNat_and,flagged_toNat hk,UInt32.toNat_and]
    exact BitFields.and_lowFlag hflag
  rw [hasFlag,hasFlag,hand]

theorem table0Entry_eq (i : ℕ) : table0Entry i = UInt32.ofNat (i*4096) ||| 3 := by
  rw [table0Entry,UInt32.or_assoc]
  rfl

theorem table1Entry_eq (i : ℕ) :
    table1Entry i = (userSpaceStart+UInt32.ofNat (i*4096)) ||| 7 := by
  rw [table1Entry,UInt32.or_assoc,UInt32.or_assoc]
  rfl

theorem offset_join {a base : UInt32} (h : base.toNat = 2^12*(a.toNat/2^12)) :
    base ||| (a &&& 0xFFF) = a := by
  apply UInt32.toNat_inj.mp
  have hlow : (a &&& 0xFFF).toNat = a.toNat % 2^12 := by
    rw [UInt32.toNat_and]
    exact Nat.and_two_pow_sub_one_eq_mod a.toNat 12
  rw [UInt32.toNat_or,h,hlow,BitFields.or_eq_add (Nat.mod_lt _ (by norm_num))]
  omega

theorem directoryIndex (a : UInt32) : (a >>> 22).toNat = a.toNat/2^22 := by
  rw [UInt32.toNat_shiftRight]
  exact Nat.shiftRight_eq_div_pow _ _

theorem tableIndex (a : UInt32) : ((a >>> 12) &&& 0x3FF).toNat = a.toNat/2^12 % 2^10 := by
  rw [UInt32.toNat_and,UInt32.toNat_shiftRight]
  exact (Nat.and_two_pow_sub_one_eq_mod _ 10).trans (by rw [Nat.shiftRight_eq_div_pow]; rfl)

/-- A walk through two present entries that map the page of `a` to itself. -/
theorem walk_through {place : Placement} {t : PageTables} {a addr base flags flags' : UInt32}
    {table : List UInt32} (hpde : t.directory[(a >>> 22).toNat]? = some (addr ||| flags))
    (haligned : 4096 ∣ addr.toNat) (htable : tableAt place t addr = some table)
    (hpte : table[((a >>> 12) &&& 0x3FF).toNat]? = some (base ||| flags'))
    (hbase : base.toNat = 2^12*(a.toNat/2^12)) (hlow : flags.toNat < 2^12) (hlow' : flags'.toNat < 2^12)
    (hpresent : hasFlag flags pagePresent = true) (hpresent' : hasFlag flags' pagePresent = true) :
    walk place t a = some ⟨a,hasFlag flags pageUser && hasFlag flags' pageUser⟩ := by
  have hroot : tableAt place t place.directory = some t.directory := if_pos rfl
  have hdvd : 4096 ∣ base.toNat := ⟨_,hbase⟩
  simp only [walk,hroot,hpde,htable,hpte,Option.bind_eq_bind,Option.bind_some,guard,
    hasFlag_flagged haligned (show pagePresent.toNat < 2^12 by decide),
    hasFlag_flagged haligned (show pageUser.toNat < 2^12 by decide),
    hasFlag_flagged hdvd (show pagePresent.toNat < 2^12 by decide),
    hasFlag_flagged hdvd (show pageUser.toNat < 2^12 by decide),
    frameBase_flagged haligned hlow,frameBase_flagged hdvd hlow',hpresent,hpresent',if_true,
    offset_join hbase,Option.pure_def]

def booted (place : Placement) : PageTables := init place .zero

section
variable (place : Placement)

theorem booted_directory : (booted place).directory =
    (place.table0 ||| 3)::(place.table1 ||| 7)::List.replicate 1022 0 := by
  have h₀ : place.table0 ||| pagePresent ||| pageRw = place.table0 ||| 3 := by
    rw [UInt32.or_assoc]
    rfl
  have h₁ : place.table1 ||| pagePresent ||| pageRw ||| pageUser = place.table1 ||| 7 := by
    rw [UInt32.or_assoc,UInt32.or_assoc]
    rfl
  simp only [booted,init,PageTables.zero,entriesPerTable,h₀,h₁]
  rfl

theorem tableAt_table0 : tableAt place (booted place) place.table0 =
    some (fillEntries table0Entry entriesPerTable (List.replicate entriesPerTable 0)) := by
  rw [tableAt,if_neg place.table0_ne_directory,if_pos rfl,booted,init,PageTables.zero]

theorem tableAt_table1 : tableAt place (booted place) place.table1 =
    some (fillEntries table1Entry entriesPerTable (List.replicate entriesPerTable 0)) := by
  rw [tableAt,if_neg place.table1_ne_directory,if_neg place.table1_ne_table0,if_pos rfl,booted,init,
    PageTables.zero]

theorem filled_getElem? (entry : ℕ → UInt32) {i : ℕ} (hi : i < entriesPerTable) :
    (fillEntries entry entriesPerTable (List.replicate entriesPerTable 0))[i]? = some (entry i) :=
  fillEntries_getElem? entry (by simp) hi

theorem walk_kernel {a : UInt32} (ha : a.toNat < 2^22) :
    walk place (booted place) a = some ⟨a,false⟩ := by
  have hpde : (booted place).directory[(a >>> 22).toNat]? = some (place.table0 ||| 3) := by
    rw [directoryIndex,booted_directory,Nat.div_eq_of_lt ha]
    rfl
  have hindex : a.toNat/2^12 % 2^10 < entriesPerTable := Nat.mod_lt _ (by norm_num)
  have hpte := filled_getElem? table0Entry hindex
  rw [← tableIndex,table0Entry_eq] at hpte
  refine walk_through hpde place.table0_aligned (tableAt_table0 place) hpte ?_
    (by decide) (by decide) (by decide) (by decide)
  rw [tableIndex,UInt32.toNat_ofNat_of_lt' (by simp only [UInt32.size]; omega)]
  omega

theorem walk_user {a : UInt32} (hstart : 2^22 ≤ a.toNat) (hend : a.toNat < 2^23) :
    walk place (booted place) a = some ⟨a,true⟩ := by
  have hpde : (booted place).directory[(a >>> 22).toNat]? = some (place.table1 ||| 7) := by
    rw [directoryIndex,booted_directory,show a.toNat/2^22 = 1 by omega]
    rfl
  have hindex : a.toNat/2^12 % 2^10 < entriesPerTable := Nat.mod_lt _ (by norm_num)
  have hpte := filled_getElem? table1Entry hindex
  rw [← tableIndex,table1Entry_eq] at hpte
  refine walk_through hpde place.table1_aligned (tableAt_table1 place) hpte ?_
    (by decide) (by decide) (by decide) (by decide)
  rw [tableIndex,UInt32.toNat_add,UInt32.toNat_ofNat_of_lt' (by simp only [UInt32.size]; omega)]
  have hbase : userSpaceStart.toNat = 2^22 := rfl
  omega

theorem walk_none {a : UInt32} (ha : 2^23 ≤ a.toNat) : walk place (booted place) a = none := by
  have hlt := a.toNat_lt
  have hpde : (booted place).directory[(a >>> 22).toNat]? = some 0 := by
    obtain ⟨k,hk⟩ := Nat.exists_eq_add_of_le' (show 2 ≤ a.toNat/2^22 by omega)
    rw [directoryIndex,booted_directory,hk,List.getElem?_cons_succ,List.getElem?_cons_succ,
      List.getElem?_replicate,if_pos (by omega)]
  have hroot : tableAt place (booted place) place.directory = some (booted place).directory := if_pos rfl
  simp only [walk,hroot,hpde,Option.bind_eq_bind,Option.bind_some,guard]
  rfl

/-- The address is mapped, and the user may use the mapping. -/
def UserAccessible (addr : ℕ) : Prop :=
  ∃ a : UInt32, a.toNat = addr ∧ ∃ physical, walk place (booted place) a = some ⟨physical,true⟩

theorem userAccessible_iff {addr : ℕ} :
    UserAccessible place addr ↔ userSpaceStart.toNat ≤ addr ∧ addr < userSpaceEnd.toNat := by
  have hstart : userSpaceStart.toNat = 2^22 := rfl
  have hend : userSpaceEnd.toNat = 2^23 := rfl
  rw [hstart,hend]
  constructor
  · rintro ⟨a,rfl,physical,hwalk⟩
    by_contra hout
    by_cases hlow : a.toNat < 2^22
    · rw [walk_kernel place hlow] at hwalk
      simp at hwalk
    · rw [walk_none place (by omega)] at hwalk
      simp at hwalk
  · rintro ⟨hlow,hhigh⟩
    have haddr : (UInt32.ofNat addr).toNat = addr :=
      UInt32.toNat_ofNat_of_lt' (by simp only [UInt32.size]; omega)
    exact ⟨UInt32.ofNat addr,haddr,_,walk_user place (by omega) (by omega)⟩

theorem userRangeContains_iff {ptr len : UInt32} : userRangeContains ptr len = true ↔
    len ≠ 0 ∧ userSpaceStart.toNat ≤ ptr.toNat ∧ ptr.toNat+len.toNat ≤ userSpaceEnd.toNat := by
  have hend : userSpaceEnd.toNat = 2^23 := rfl
  unfold userRangeContains
  split_ifs with hlen
  · simp [hlen]
  · have hpos : 0 < len.toNat := Nat.pos_of_ne_zero fun h => hlen (UInt32.toNat_inj.mp h)
    unfold checkedAdd
    split
    · rename_i hnone
      simp only [ite_eq_right_iff,reduceCtorEq,imp_false] at hnone
      simp [hlen]
      omega
    · rename_i last hsome
      simp only [Option.ite_none_right_eq_some,Option.some.injEq] at hsome
      obtain ⟨-,rfl⟩ := hsome
      simp [hlen]
      omega

theorem validateUserBuffer_ok_iff {ptr len : UInt32} :
    (∃ buffer, validateUserBuffer ptr len = .ok buffer) ↔
      (1 ≤ len.toNat ∧ len.toNat ≤ maxPrintLen) ∧ userRangeContains ptr len = true := by
  have hzero : len = 0 ↔ len.toNat = 0 := (UInt32.toNat_inj (b := 0)).symm
  unfold validateUserBuffer
  split_ifs with hlen hrange
  · simp only [hzero] at hlen
    simp
    omega
  · simp only [hzero] at hlen
    simp [hrange]
    omega
  · simp [hrange]

/-- The pointer check accepts exactly the buffers that the page tables let the user reach. -/
theorem pointer_check_agrees :
    (∀ ptr len : UInt32, (∃ buffer, validateUserBuffer ptr len = .ok buffer) ↔
      (1 ≤ len.toNat ∧ len.toNat ≤ maxPrintLen) ∧ ∀ i < len.toNat, UserAccessible place (ptr.toNat+i)) ∧
    (∀ a : UInt32, a.toNat < 0x800000 → ∃ user, walk place (booted place) a = some ⟨a,user⟩) ∧
    ∀ addr, UserAccessible place addr → addr ∈ Set.Ico userSpaceStart.toNat userSpaceEnd.toNat := by
  refine ⟨?_,?_,fun addr h => (userAccessible_iff place).mp h⟩
  · intro ptr len
    rw [validateUserBuffer_ok_iff,userRangeContains_iff]
    refine and_congr_right fun hlen => ?_
    simp only [userAccessible_iff]
    have hne : len ≠ 0 := by rintro rfl; simp at hlen
    constructor
    · rintro ⟨-,hstart,hend⟩ i hi
      omega
    · intro h
      have hfirst := h 0 (by omega)
      have hlast := h (len.toNat-1) (by omega)
      exact ⟨hne,by omega,by omega⟩
  · intro a ha
    by_cases hlow : a.toNat < 2^22
    · exact ⟨false,walk_kernel place hlow⟩
    · exact ⟨true,walk_user place (by omega) (by omega)⟩

end

end Paging
end EnosKernel
