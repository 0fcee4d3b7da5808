import EnosKernel.FrameAllocator
import EnosKernel.SortedScan

/-! What the frame allocator enumerates.  Each entry of a well-formed map contributes an
increasing list of usable frames; a cursor inside the entry scans that list, and one
turn of the walk takes its head or moves on to the next entry. -/
namespace EnosKernel
namespace FrameAllocator

open MachineArith BumpAllocator

/-- The multiboot structure announces a map of 24-byte entries that lies in memory. -/
structure WellFormedMap (mem : Memory) (info : MultibootInfo) (es : List MemoryMapEntry) : Prop where
  present : info.flags &&& ((1 : UInt32) <<< 6) ≠ 0
  length : info.mmapLength.toNat = 24*es.length
  fits : info.mmapAddr.toNat+24*es.length ≤ 2^32
  entry : ∀ i (h : i < es.length), entryAt mem (info.mmapAddr.toNat+24*i) = es[i]
  size : ∀ e ∈ es, e.size = 20

def roundedEnd (image : KernelImage) : ℕ :=
  if image.kernelEnd % pageSize = 0 then image.kernelEnd
  else image.kernelEnd - image.kernelEnd % pageSize + pageSize

theorem roundedEnd_spec (image : KernelImage) : pageSize ∣ roundedEnd image ∧
    image.kernelEnd ≤ roundedEnd image ∧ roundedEnd image < image.kernelEnd+pageSize := by
  unfold roundedEnd
  split_ifs with h <;> simp only [pageSize] at h ⊢ <;> omega

theorem kernelEndAligned_ok {image : KernelImage} (h : image.kernelEnd ≤ 2^32-pageSize) :
    kernelEndAligned image = .ok (roundedEnd image) := by
  unfold kernelEndAligned roundedEnd
  split_ifs
  · rfl
  · exact add_ok (by simp only [pageSize] at *; omega)

/-- A kernel image that lies below 2 GiB, as the linker places it. -/
structure KernelImage.Placed (image : KernelImage) : Prop where
  ordered : image.kernelStart ≤ image.kernelEnd
  below : image.kernelEnd < 2^31

theorem KernelImage.Placed.kernelEndAligned {image : KernelImage} (hp : image.Placed) :
    kernelEndAligned image = .ok (roundedEnd image) :=
  kernelEndAligned_ok (hp.below.le.trans (by decide))

def Clear (image : KernelImage) (s : ℕ) : Prop :=
  s+pageSize ≤ image.kernelStart ∨ roundedEnd image ≤ s

/-- The candidate is the first clear page at or after the cursor. -/
theorem skipKernel_spec {image : KernelImage} (hp : image.Placed) {c : ℕ} (hc : pageSize ∣ c)
    (hlt : c < 2^32) :
    (pageSize ∣ skipKernel image (roundedEnd image) c ∧ skipKernel image (roundedEnd image) c < 2^32) ∧
    c ≤ skipKernel image (roundedEnd image) c ∧ Clear image (skipKernel image (roundedEnd image) c) ∧
    ∀ s, c ≤ s → Clear image s → skipKernel image (roundedEnd image) c ≤ s := by
  obtain ⟨hdvd,hle,hend⟩ := roundedEnd_spec image
  have hbelow := hp.below
  have hordered := hp.ordered
  unfold skipKernel Clear saturatingAdd
  split_ifs with h
  · simp only [pageSize] at *
    refine ⟨⟨hdvd,by omega⟩,by omega,Or.inr le_rfl,?_⟩
    intro s hs hclear
    omega
  · simp only [pageSize] at *
    exact ⟨⟨hc,hlt⟩,le_rfl,by omega,fun s hs _ => hs⟩

def pages : List ℕ := (List.range (2^20)).map (pageSize*·)

theorem pages_sorted : pages.Pairwise (· < ·) := by
  refine List.pairwise_map.mpr (List.pairwise_lt_range.imp ?_)
  intro a b hab
  simp only [pageSize]
  omega

theorem mem_pages {s : ℕ} : s ∈ pages ↔ pageSize ∣ s ∧ s < 2^32 := by
  simp only [pages,List.mem_map,List.mem_range,pageSize]
  constructor
  · rintro ⟨k,hk,rfl⟩
    omega
  · rintro ⟨⟨k,rfl⟩,hlt⟩
    exact ⟨k,by omega,rfl⟩

attribute [irreducible] pages

/-- A frame at `s` that the entry and the kernel image leave free. -/
def Usable (image : KernelImage) (e : MemoryMapEntry) (s : ℕ) : Prop :=
  e.isAvailable ∧ e.allocationFloor ≤ s ∧ s+pageSize ≤ e.regionEnd ∧ Clear image s

instance clearDecidable (image : KernelImage) (s : ℕ) : Decidable (Clear image s) := by
  unfold Clear; infer_instance

instance usableDecidable (image : KernelImage) (e : MemoryMapEntry) (s : ℕ) :
    Decidable (Usable image e s) := by unfold Usable; infer_instance

def framesIn (image : KernelImage) (e : MemoryMapEntry) : List ℕ :=
  pages.filter (fun s => Usable image e s)

theorem framesIn_sorted (image : KernelImage) (e : MemoryMapEntry) :
    (framesIn image e).Pairwise (· < ·) := pages_sorted.filter _

theorem mem_framesIn {image : KernelImage} {e : MemoryMapEntry} {s : ℕ} :
    s ∈ framesIn image e ↔ (pageSize ∣ s ∧ s < 2^32) ∧ Usable image e s := by
  simp [framesIn,mem_pages]

/-- The entry passes both tests that precede the cursor. -/
def Roomy (e : MemoryMapEntry) : Prop :=
  e.isAvailable ∧ e.allocationFloor < e.regionEnd ∧ e.allocationFloor < 2^32

/-- The first page of the region is not below 4 GiB, although the region starts there:
the narrowing cast turns the cursor into address 0. -/
def Wraps (e : MemoryMapEntry) : Prop := Roomy e ∧ 2^32-pageSize < e.allocationFloor

/-- The region covers the last page below 4 GiB: the cursor addition behind that page panics. -/
def Overflows (e : MemoryMapEntry) : Prop :=
  Roomy e ∧ e.allocationFloor ≤ 2^32-pageSize ∧ 2^32-1 ≤ e.regionEnd

/-- A cursor the walk may hold inside an entry. -/
def CursorOk (e : MemoryMapEntry) (c : ℕ) : Prop :=
  Roomy e ∧ pageSize ∣ c ∧ e.allocationFloor ≤ c ∧ c < 2^32

def stateAt (info : MultibootInfo) (es : List MemoryMapEntry) (i : ℕ) (cur : Option ℕ) :
    BumpAllocator := ⟨info.mmapAddr.toNat,24*es.length,cur,24*i⟩

variable {mem : Memory} {info : MultibootInfo} {es : List MemoryMapEntry} {image : KernelImage}

theorem new_eq (h : WellFormedMap mem info es) : BumpAllocator.new info = stateAt info es 0 none := by
  rw [BumpAllocator.new,if_pos h.present,stateAt,h.length]

theorem visit_stateAt (h : WellFormedMap mem info es) {i : ℕ} (hi : i < es.length) (cur : Option ℕ) :
    visit mem image (stateAt info es i cur) = visitEntry image (stateAt info es i cur) es[i] := by
  have hfits := h.fits
  have hadd : add 32 info.mmapAddr.toNat (24*i) = .ok (info.mmapAddr.toNat+24*i) :=
    add_ok (by omega)
  simp only [visit,stateAt,hadd,bind,Except.bind,h.entry i hi]

theorem skipEntry_stateAt (h : WellFormedMap mem info es) {i : ℕ} (hi : i < es.length)
    (cur : Option ℕ) :
    (stateAt info es i cur).skipEntry es[i] = .ok (.next (stateAt info es (i+1) none)) := by
  have hsize : es[i].size.toNat = 20 := by rw [h.size es[i] (by simp)]; rfl
  have hlen := h.length
  have hword := info.mmapLength.toNat_lt
  have hadd : add 32 (24*i) 24 = .ok (24*i+24) := add_ok (by omega)
  simp only [skipEntry,stateAt,hsize,add_ok (show 20+4 < 2^32 by norm_num),hadd,bind,Except.bind]
  rfl

theorem framesIn_of_not_roomy {e : MemoryMapEntry} (h : ¬ Roomy e) : framesIn image e = [] := by
  apply List.eq_nil_iff_forall_not_mem.mpr
  intro s hs
  obtain ⟨⟨-,hlt⟩,hav,hfloor,hend,-⟩ := mem_framesIn.mp hs
  exact h ⟨hav,by simp only [pageSize] at hend; omega,by omega⟩

theorem visitEntry_of_not_roomy {a : BumpAllocator} {e : MemoryMapEntry} (h : ¬ Roomy e) :
    visitEntry image a e = a.skipEntry e := by
  unfold visitEntry
  by_cases hav : e.isAvailable
  · rw [if_neg (by simpa using hav),if_pos]
    unfold Roomy at h
    simp only [hav,true_and,not_and,not_lt] at h
    omega
  · rw [if_pos hav]

theorem visitEntry_of_roomy {a : BumpAllocator} {e : MemoryMapEntry} (h : Roomy e) :
    visitEntry image a e = takeFrame image a e := by
  obtain ⟨hav,hroom,hlow⟩ := h
  rw [visitEntry,if_neg (by simpa using hav),if_neg (by omega)]

theorem alignUp_ok {value align : ℕ} (h : value+align < 2^64) :
    alignUp value align = .ok (roundUp value align) := by
  unfold alignUp roundUp
  dsimp only
  split_ifs
  · rfl
  · rw [add_ok h]
    rfl

theorem cursor_first {a : BumpAllocator} (hfirst : a.nextFreeFrame = none) {e : MemoryMapEntry}
    (hroomy : Roomy e) : a.cursor e = .ok (truncate 32 (roundUp e.allocationFloor pageSize)) := by
  have hword := hroomy.2.2
  have halign : alignUp e.allocationFloor pageSize = .ok (roundUp e.allocationFloor pageSize) :=
    alignUp_ok (by simp only [pageSize]; omega)
  simp only [BumpAllocator.cursor,hfirst,halign,bind,Except.bind]

theorem cursor_none (info : MultibootInfo) (es : List MemoryMapEntry) {e : MemoryMapEntry} (hroomy : Roomy e)
    (hlow : e.allocationFloor ≤ 2^32-pageSize) (i : ℕ) :
    ∃ c, (stateAt info es i none).cursor e = .ok c ∧ CursorOk e c ∧ c < e.allocationFloor+pageSize := by
  have hpos : 0 < pageSize := by decide
  have hlt : roundUp e.allocationFloor pageSize < 2^32 :=
    (roundUp_le (by decide) hlow).trans_lt (by decide)
  refine ⟨roundUp e.allocationFloor pageSize,?_,⟨hroomy,dvd_roundUp _ _,le_roundUp _ hpos,hlt⟩,
    roundUp_lt _ hpos⟩
  rw [cursor_first rfl hroomy,truncate_of_lt hlt]

theorem takeFrame_eq (h : WellFormedMap mem info es) (hp : image.Placed) {i : ℕ}
    (hi : i < es.length) {cur : Option ℕ} {c candidate : ℕ}
    (hcur : (stateAt info es i cur).cursor es[i] = .ok c)
    (hcand : skipKernel image (roundedEnd image) c = candidate) :
    takeFrame image (stateAt info es i cur) es[i] =
      if saturatingAdd 32 candidate pageSize ≤ es[i].regionEnd ∧
          candidate < saturatingAdd 32 candidate pageSize then
        (add 32 candidate pageSize).bind fun next =>
          .ok (.frame ⟨candidate⟩ (stateAt info es i (some next)))
      else .ok (.next (stateAt info es (i+1) none)) := by
  simp only [takeFrame,hcur,hp.kernelEndAligned,bind,Except.bind,hcand]
  rw [skipEntry_stateAt h hi]
  simp only [stateAt]

def framesFrom (image : KernelImage) (e : MemoryMapEntry) (c : ℕ) : List ℕ :=
  (framesIn image e).filter (c ≤ ·)

theorem framesFrom_floor {e : MemoryMapEntry} {c : ℕ} (hc : pageSize ∣ c)
    (hlt : c < e.allocationFloor+pageSize) : framesFrom image e c = framesIn image e := by
  unfold framesFrom
  rw [List.filter_eq_self]
  intro s hs
  obtain ⟨⟨hdvd,-⟩,-,hfloor,-⟩ := mem_framesIn.mp hs
  simp only [pageSize] at hc hlt hdvd
  simp only [decide_eq_true_eq]
  omega

theorem framesFrom_cons (hp : image.Placed) {e : MemoryMapEntry} {c : ℕ} (hc : CursorOk e c)
    (hfit : skipKernel image (roundedEnd image) c+pageSize ≤ e.regionEnd) :
    framesFrom image e c = skipKernel image (roundedEnd image) c ::
      framesFrom image e (skipKernel image (roundedEnd image) c+pageSize) := by
  obtain ⟨⟨hav,-⟩,hdvd,hfloor,hlt⟩ := hc
  obtain ⟨hpage,hle,hclear,hleast⟩ := skipKernel_spec hp hdvd hlt
  have hmem : skipKernel image (roundedEnd image) c ∈ framesIn image e :=
    mem_framesIn.mpr ⟨hpage,hav,hfloor.trans hle,hfit,hclear⟩
  have hmin : ∀ s ∈ framesIn image e, c ≤ s → skipKernel image (roundedEnd image) c ≤ s :=
    fun s hs hcs => hleast s hcs (mem_framesIn.mp hs).2.2.2.2
  unfold framesFrom
  rw [SortedScan.filter_le_eq_cons (framesIn_sorted image e) hmem hle hmin,List.cons_inj_right]
  apply List.filter_congr
  intro s hs
  obtain ⟨⟨hs,-⟩,-⟩ := mem_framesIn.mp hs
  obtain ⟨hpage,-⟩ := hpage
  simp only [pageSize] at hs hpage
  rw [decide_eq_decide,show pageSize = 4096 from rfl]
  omega

theorem framesFrom_nil (hp : image.Placed) {e : MemoryMapEntry} {c : ℕ} (hc : CursorOk e c)
    (hfit : e.regionEnd < skipKernel image (roundedEnd image) c+pageSize) :
    framesFrom image e c = [] := by
  obtain ⟨-,hdvd,-,hlt⟩ := hc
  obtain ⟨-,-,-,hleast⟩ := skipKernel_spec hp hdvd hlt
  apply SortedScan.filter_le_eq_nil
  intro s hs hcs
  obtain ⟨-,-,-,hend,hclear⟩ := mem_framesIn.mp hs
  have := hleast s hcs hclear
  omega

def framesLeft (image : KernelImage) (e : MemoryMapEntry) : Option ℕ → List ℕ
  | none => framesIn image e
  | some c => framesFrom image e c

/-- One turn in front of an entry with `left` to hand out: its head is taken, or the entry is
left behind when nothing is left, or the addition behind the last page panics. -/
inductive Turn (image : KernelImage) (info : MultibootInfo) (es : List MemoryMapEntry) (i : ℕ)
    (e : MemoryMapEntry) (left : List ℕ) : Except Panic Visit → Prop
  | frame {s : ℕ} (hs : left = s :: framesFrom image e (s+pageSize))
      (hnext : CursorOk e (s+pageSize)) :
      Turn image info es i e left (.ok (.frame ⟨s⟩ (stateAt info es i (some (s+pageSize)))))
  | next (hnil : left = []) (hlast : ¬ Overflows e) :
      Turn image info es i e left (.ok (.next (stateAt info es (i+1) none)))
  | overflow (hlast : Overflows e) : Turn image info es i e left (.error .overflow)

theorem takeFrame_turn (h : WellFormedMap mem info es) (hp : image.Placed) {i : ℕ}
    (hi : i < es.length) {cur : Option ℕ} {c : ℕ}
    (hcur : (stateAt info es i cur).cursor es[i] = .ok c) (hc : CursorOk es[i] c) :
    Turn image info es i es[i] (framesFrom image es[i] c)
      (takeFrame image (stateAt info es i cur) es[i]) := by
  obtain ⟨hroomy,hdvd,hfloor,hlt⟩ := id hc
  obtain ⟨⟨hpage,hword⟩,hle,-,-⟩ := skipKernel_spec hp hdvd hlt
  have hcons := framesFrom_cons hp hc
  have hnil := framesFrom_nil hp hc
  rw [takeFrame_eq h hp hi hcur rfl]
  generalize skipKernel image (roundedEnd image) c = s at *
  have hlast : s+pageSize < 2^32 ∨ s+pageSize = 2^32 := by simp only [pageSize] at *; omega
  rcases hlast with hlow | hlast
  · rw [saturatingAdd_of_lt hlow,add_ok hlow]
    split_ifs with hfit
    · refine .frame (hcons hfit.1) ⟨hroomy,?_,?_,hlow⟩ <;> simp only [pageSize] at * <;> omega
    · have hend : es[i].regionEnd < s+pageSize := by simp only [pageSize] at *; omega
      refine .next (hnil hend) ?_
      rintro ⟨-,-,hover⟩
      simp only [pageSize] at *
      omega
  · rw [saturatingAdd_of_le hlast.ge,add_overflow hlast.ge]
    split_ifs with hfit
    · exact .overflow ⟨hroomy,by simp only [pageSize] at *; omega,hfit.1⟩
    · have hend : es[i].regionEnd < 2^32-1 := by simp only [pageSize] at *; omega
      exact .next (hnil (by omega)) fun hover => absurd hover.2.2 (by omega)

theorem visitEntry_turn (h : WellFormedMap mem info es) (hp : image.Placed) {i : ℕ}
    (hi : i < es.length) {cur : Option ℕ} (hcur : ∀ c, cur = some c → CursorOk es[i] c)
    (hwrap : ¬ Wraps es[i]) :
    Turn image info es i es[i] (framesLeft image es[i] cur)
      (visitEntry image (stateAt info es i cur) es[i]) := by
  cases cur with
  | some c =>
    have hc := hcur c rfl
    rw [visitEntry_of_roomy hc.1]
    exact takeFrame_turn h hp hi rfl hc
  | none =>
    by_cases hroomy : Roomy es[i]
    · have hlow : es[i].allocationFloor ≤ 2^32-pageSize := by
        by_contra hlt
        exact hwrap ⟨hroomy,not_le.mp hlt⟩
      obtain ⟨c,hcursor,hc,hfirst⟩ := cursor_none info es hroomy hlow i
      rw [visitEntry_of_roomy hroomy,framesLeft,← framesFrom_floor hc.2.1 hfirst]
      exact takeFrame_turn h hp hi hcursor hc
    · rw [visitEntry_of_not_roomy hroomy,skipEntry_stateAt h hi]
      exact .next (framesIn_of_not_roomy hroomy) fun hlast => hroomy hlast.1

end FrameAllocator
end EnosKernel
