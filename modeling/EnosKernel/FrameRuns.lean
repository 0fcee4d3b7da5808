import EnosKernel.FrameEnumeration

/-! Whole runs of the frame allocator.  Away from the top of the 32-bit space a run hands
out the usable frames of the map in order; the run is sound exactly when no region
begins in the last page below 4 GiB. -/
namespace EnosKernel
namespace FrameAllocator

open MachineArith BumpAllocator

variable {mem : Memory} {info : MultibootInfo} {es : List MemoryMapEntry} {image : KernelImage}

theorem allocateFrame_stateAt (h : WellFormedMap mem info es) {i : ℕ} (hi : i < es.length)
    (cur : Option ℕ) :
    allocateFrame mem image (stateAt info es i cur) =
      match visitEntry image (stateAt info es i cur) es[i] with
      | .error p => .error p
      | .ok (.frame f a) => .ok (some f,a)
      | .ok (.next a) => allocateFrame mem image a := by
  have hoffset : (stateAt info es i cur).currentMmapOffset < (stateAt info es i cur).memoryMapLength := by
    simp only [stateAt]
    omega
  rw [allocateFrame,if_pos hoffset,visit_stateAt h hi]
  split <;> simp_all

theorem allocateFrame_end (cur : Option ℕ) :
    allocateFrame mem image (stateAt info es es.length cur) = .ok (none,stateAt info es es.length cur) := by
  rw [allocateFrame,if_neg (by simp [stateAt])]

theorem allocateFrame_cases (h : WellFormedMap mem info es) (hp : image.Placed)
    {before after : List MemoryMapEntry} {e : MemoryMapEntry} {cur : Option ℕ}
    (hes : es = before++e::after) (hcur : ∀ c, cur = some c → CursorOk e c) (hwrap : ¬ Wraps e) :
    (∃ s, framesLeft image e cur = s::framesLeft image e (some (s+pageSize)) ∧
      CursorOk e (s+pageSize) ∧ allocateFrame mem image (stateAt info es before.length cur) =
        .ok (some ⟨s⟩,stateAt info es before.length (some (s+pageSize)))) ∨
    (framesLeft image e cur = [] ∧ ¬ Overflows e ∧
      allocateFrame mem image (stateAt info es before.length cur) =
        allocateFrame mem image (stateAt info es (before++[e]).length none)) ∨
    (Overflows e ∧ allocateFrame mem image (stateAt info es before.length cur) = .error .overflow) := by
  have hi : before.length < es.length := by simp [hes]
  have he : es[before.length] = e := by simp [hes]
  have hturn := visitEntry_turn h hp hi (by rwa [he]) (by rwa [he])
  rw [allocateFrame_stateAt h hi]
  generalize visitEntry image (stateAt info es before.length cur) es[before.length] = result at hturn ⊢
  rw [he] at hturn
  cases hturn with
  | frame hs hnext => exact Or.inl ⟨_,hs,hnext,rfl⟩
  | next hnil hlast => exact Or.inr (Or.inl ⟨hnil,hlast,by simp⟩)
  | overflow hlast => exact Or.inr (Or.inr ⟨hlast,rfl⟩)

/-- `frames` are still to come before the walk reaches the entries `after`. -/
inductive Pending (image : KernelImage) (info : MultibootInfo) (es after : List MemoryMapEntry) :
    BumpAllocator → List ℕ → Prop
  | reached {before : List MemoryMapEntry} (hes : es = before++after) :
      Pending image info es after (stateAt info es before.length none) []
  | inside {before seg : List MemoryMapEntry} {e : MemoryMapEntry} {cur : Option ℕ}
      (hes : es = before++e::(seg++after)) (htame : ∀ e' ∈ e::seg, ¬ Wraps e' ∧ ¬ Overflows e')
      (hcur : ∀ c, cur = some c → CursorOk e c) :
      Pending image info es after (stateAt info es before.length cur)
        (framesLeft image e cur++seg.flatMap (framesIn image))

theorem pending_before (before : List MemoryMapEntry) {seg after : List MemoryMapEntry}
    (hes : es = before++(seg++after)) (htame : ∀ e ∈ seg, ¬ Wraps e ∧ ¬ Overflows e) :
    Pending image info es after (stateAt info es before.length none)
      (seg.flatMap (framesIn image)) := by
  cases seg with
  | nil => exact .reached hes
  | cons e seg => exact @Pending.inside image info es after before seg e none hes htame (by simp)

/-- A call hands out the head of what is pending, or walks on to `after`. -/
theorem pending_call (h : WellFormedMap mem info es) (hp : image.Placed)
    {after : List MemoryMapEntry} {a : BumpAllocator} {frames : List ℕ}
    (ha : Pending image info es after a frames) :
    (∃ s rest a', frames = s::rest ∧ allocateFrame mem image a = .ok (some ⟨s⟩,a') ∧
      Pending image info es after a' rest) ∨
    (frames = [] ∧ ∃ before, es = before++after ∧ allocateFrame mem image a =
      allocateFrame mem image (stateAt info es before.length none)) := by
  cases ha with
  | reached hes => exact Or.inr ⟨rfl,_,hes,rfl⟩
  | @inside before seg e cur hes htame hcur =>
    rcases allocateFrame_cases h hp hes hcur (htame e (by simp)).1 with
      ⟨s,hs,hnext,hcall⟩ | ⟨hnil,-,hcall⟩ | ⟨hlast,-⟩
    · refine Or.inl ⟨s,_,_,by rw [hs,List.cons_append],hcall,.inside hes htame ?_⟩
      rintro c ⟨⟩
      exact hnext
    · rw [hnil,hcall,List.nil_append]
      exact pending_call h hp (pending_before (before++[e]) (by simp [hes])
        fun e' he' => htame e' (List.mem_cons_of_mem e he'))
    · exact absurd hlast (htame e (by simp)).2
termination_by a.memoryMapLength - a.currentMmapOffset
decreasing_by
  simp only [stateAt,hes,List.length_append,List.length_cons,List.length_nil]
  omega

theorem pending_run (h : WellFormedMap mem info es) (hp : image.Placed) (n : ℕ) {a : BumpAllocator}
    {frames : List ℕ} (ha : Pending image info es [] a frames) :
    ∃ a', allocateFrames mem image n a =
      .ok ((frames.map (fun s => some ⟨s⟩)).take n++List.replicate (n-frames.length) none,a') := by
  induction n generalizing a frames with
  | zero => exact ⟨a,by simp [allocateFrames]⟩
  | succ n ih =>
    rcases pending_call h hp ha with ⟨s,rest,a',rfl,hcall,hrest⟩ | ⟨rfl,before,hes,hcall⟩
    · obtain ⟨a'',hrun⟩ := ih hrest
      exact ⟨a'',by simp [allocateFrames,hcall,hrun,bind,Except.bind]⟩
    · have hend : before.length = es.length := by simp [hes]
      obtain ⟨a'',hrun⟩ := ih (.reached hes)
      rw [hend] at hcall hrun
      refine ⟨a'',?_⟩
      simp only [allocateFrames,hcall,allocateFrame_end,hrun,bind,Except.bind]
      simp [List.replicate_succ]

/-- The bytes of a memory map in the order of the packed struct. -/
def MemoryMapEntry.word (e : MemoryMapEntry) : ℕ → UInt32
  | 0 => e.size
  | 1 => e.baseAddrLow
  | 2 => e.baseAddrHigh
  | 3 => e.lengthLow
  | 4 => e.lengthHigh
  | _ => e.bufferType

/-- A memory that holds the map at `addr` and zeros elsewhere. -/
def layOut (addr : ℕ) (es : List MemoryMapEntry) : Memory := fun a =>
  match es[(a-addr)/24]? with
  | some e => UInt8.ofNat ((e.word ((a-addr)%24/4)).toNat/2^(8*((a-addr)%4)))
  | none => 0

def infoOf (addr : ℕ) (es : List MemoryMapEntry) : MultibootInfo :=
  ⟨(1 : UInt32) <<< 6,UInt32.ofNat (24*es.length),UInt32.ofNat addr⟩

theorem readU32_layOut (addr : ℕ) {i k : ℕ} (hi : i < es.length) (hk : k < 6) :
    readU32 (layOut addr es) (addr+24*i+4*k) = es[i].word k := by
  have hbyte : ∀ j < 4, layOut addr es (addr+24*i+4*k+j) = UInt8.ofNat ((es[i].word k).toNat/2^(8*j)) := by
    intro j hj
    have hentry : (addr+24*i+4*k+j-addr)/24 = i := by omega
    have hword : (addr+24*i+4*k+j-addr)%24/4 = k := by omega
    have hshift : (addr+24*i+4*k+j-addr)%4 = j := by omega
    simp only [layOut,hentry,hword,hshift,List.getElem?_eq_getElem hi]
  have hlt := (es[i].word k).toNat_lt
  apply UInt32.toNat_inj.mp
  have h₀ := hbyte 0 (by omega)
  simp only [readU32,hbyte 1 (by omega),hbyte 2 (by omega),hbyte 3 (by omega)]
  rw [add_zero] at h₀
  simp only [h₀,UInt8.toNat_ofNat',UInt32.toNat_ofNat']
  omega

theorem layOut_wellFormed {addr : ℕ} (hfits : addr+24*es.length < 2^32)
    (hsize : ∀ e ∈ es, e.size = 20) : WellFormedMap (layOut addr es) (infoOf addr es) es where
  present := by simp only [infoOf]; decide
  length := UInt32.toNat_ofNat_of_lt' (by simp only [UInt32.size]; omega)
  fits := by rw [infoOf,UInt32.toNat_ofNat_of_lt' (by simp only [UInt32.size]; omega)]; omega
  size := hsize
  entry := by
    intro i hi
    rw [infoOf,UInt32.toNat_ofNat_of_lt' (by simp only [UInt32.size]; omega)]
    have hword := fun k (hk : k < 6) => readU32_layOut addr hi hk
    have heta : es[i] = ⟨es[i].word 0,es[i].word 1,es[i].word 2,es[i].word 3,es[i].word 4,es[i].word 5⟩ := rfl
    rw [heta,entryAt,MemoryMapEntry.mk.injEq]
    exact ⟨hword 0 (by omega),hword 1 (by omega),hword 2 (by omega),hword 3 (by omega),
      hword 4 (by omega),hword 5 (by omega)⟩

def page (s : ℕ) : Set ℕ := Set.Ico s (s+pageSize)

def MemoryMapEntry.region (e : MemoryMapEntry) : Set ℕ :=
  Set.Ico e.regionStart (e.regionStart+e.regionLength)

theorem page_subset_region {e : MemoryMapEntry} {s : ℕ} :
    page s ⊆ e.region ↔ e.regionStart ≤ s ∧ s+pageSize ≤ e.regionStart+e.regionLength :=
  Ranges.Ico_subset_iff (by decide)

theorem clear_iff {s : ℕ} (hs : pageSize ∣ s) :
    Clear image s ↔ Disjoint (page s) (Set.Ico image.kernelStart (roundedEnd image)) := by
  obtain ⟨hdvd,hle,hend⟩ := roundedEnd_spec image
  rw [page,Ranges.disjoint_iff (by decide),Clear]
  simp only [pageSize] at *
  omega

theorem regionEnd_le (e : MemoryMapEntry) : e.regionEnd ≤ e.regionStart+e.regionLength :=
  Nat.min_le_left _ _

theorem mem_framesIn_iff {e : MemoryMapEntry} {s : ℕ}
    (hend : e.isAvailable → e.regionStart+e.regionLength ≤ 0xFFFFF000) :
    s ∈ framesIn image e ↔ pageSize ∣ s ∧ lowMemoryReservedEnd ≤ s ∧
      (e.isAvailable ∧ page s ⊆ e.region) ∧
      Disjoint (page s) (Set.Ico image.kernelStart (roundedEnd image)) := by
  rw [mem_framesIn,Usable,page_subset_region,MemoryMapEntry.allocationFloor]
  constructor
  · rintro ⟨⟨hdvd,-⟩,hav,hfloor,hlast,hclear⟩
    have := regionEnd_le e
    exact ⟨hdvd,by omega,⟨hav,by omega,by omega⟩,(clear_iff hdvd).mp hclear⟩
  · rintro ⟨hdvd,hlow,⟨hav,hstart,hlast⟩,hclear⟩
    have hregion : e.regionEnd = e.regionStart+e.regionLength :=
      saturatingAdd_of_lt (by have := hend hav; omega)
    have := hend hav
    exact ⟨⟨hdvd,by simp only [pageSize] at hlast; omega⟩,hav,by omega,by omega,(clear_iff hdvd).mpr hclear⟩

theorem tame_of_below {e : MemoryMapEntry}
    (hend : e.isAvailable → e.regionStart+e.regionLength ≤ 0xFFFFF000) : ¬ Wraps e ∧ ¬ Overflows e := by
  have hle := regionEnd_le e
  constructor
  · rintro ⟨⟨hav,hroom,-⟩,hlow⟩
    have := hend hav
    simp only [pageSize] at hlow
    omega
  · rintro ⟨⟨hav,-⟩,-,hlast⟩
    have := hend hav
    omega

theorem framesIn_nodup_flatMap (hdisjoint : es.Pairwise fun e e' =>
      e.isAvailable → e'.isAvailable → Disjoint e.region e'.region)
    (hend : ∀ e ∈ es, e.isAvailable → e.regionStart+e.regionLength ≤ 0xFFFFF000) :
    (es.flatMap (framesIn image)).Nodup := by
  refine List.nodup_flatMap.mpr ⟨fun e _ => (framesIn_sorted image e).imp ne_of_lt,?_⟩
  refine hdisjoint.imp_of_mem ?_
  intro e e' he he' hregions s hs hs'
  obtain ⟨-,-,⟨hav,hsub⟩,-⟩ := (mem_framesIn_iff (hend e he)).mp hs
  obtain ⟨-,-,⟨hav',hsub'⟩,-⟩ := (mem_framesIn_iff (hend e' he')).mp hs'
  have hmem : s ∈ page s := Set.left_mem_Ico.mpr (by simp [pageSize])
  exact Set.disjoint_left.mp (hregions hav hav') (hsub hmem) (hsub' hmem)

/-- Below the last page of the 32-bit space the allocator hands out exactly the usable frames,
entry after entry and upwards in each, and from then on nothing. -/
theorem allocateFrames_enumerate (h : WellFormedMap mem info es) (hp : image.Placed)
    (hdisjoint : es.Pairwise fun e e' =>
      e.isAvailable → e'.isAvailable → Disjoint e.region e'.region)
    (hend : ∀ e ∈ es, e.isAvailable → e.regionStart+e.regionLength ≤ 0xFFFFF000) :
    (∀ n, ∃ a, allocateFrames mem image n (BumpAllocator.new info) =
      .ok (((es.flatMap (framesIn image)).map (fun s => some ⟨s⟩)).take n++
        List.replicate (n-(es.flatMap (framesIn image)).length) none,a)) ∧
    (es.flatMap (framesIn image)).Nodup ∧
    ∀ e ∈ es, (framesIn image e).Pairwise (· < ·) ∧
      ∀ s, s ∈ framesIn image e ↔ pageSize ∣ s ∧ lowMemoryReservedEnd ≤ s ∧
        (e.isAvailable ∧ page s ⊆ e.region) ∧
        Disjoint (page s) (Set.Ico image.kernelStart (roundedEnd image)) := by
  refine ⟨?_,framesIn_nodup_flatMap hdisjoint hend,?_⟩
  · intro n
    rw [new_eq h]
    exact pending_run h hp n (pending_before [] (by simp) fun e he => tame_of_below (hend e he))
  · intro e he
    exact ⟨framesIn_sorted image e,fun s => mem_framesIn_iff (hend e he)⟩

def twoRegions : List MemoryMapEntry := [⟨20,0,0,0x9FC00,0,1⟩,⟨20,0x100000,0,0x5800,0,1⟩]

def smallImage : KernelImage := ⟨0x101000,0x102800⟩

theorem twoRegions_enumerate :
    (∀ n, ∃ a, allocateFrames (layOut 0x9000 twoRegions) smallImage n
        (BumpAllocator.new (infoOf 0x9000 twoRegions)) =
      .ok (((twoRegions.flatMap (framesIn smallImage)).map (fun s => some ⟨s⟩)).take n++
        List.replicate (n-(twoRegions.flatMap (framesIn smallImage)).length) none,a)) ∧
    (twoRegions.flatMap (framesIn smallImage)).Nodup := by
  have hend : ∀ e ∈ twoRegions, e.isAvailable → e.regionStart+e.regionLength ≤ 0xFFFFF000 := by decide
  have hdisjoint : twoRegions.Pairwise fun e e' =>
      e.isAvailable → e'.isAvailable → Disjoint e.region e'.region := by
    simp only [twoRegions,List.pairwise_cons,List.mem_singleton,forall_eq]
    refine ⟨fun _ _ => Set.Ico_disjoint_Ico.mpr (by decide),by simp⟩
  have hmap : WellFormedMap (layOut 0x9000 twoRegions) (infoOf 0x9000 twoRegions) twoRegions :=
    layOut_wellFormed (by decide) (by decide)
  have hp : smallImage.Placed := ⟨by decide,by decide⟩
  have h := allocateFrames_enumerate hmap hp hdisjoint hend
  exact ⟨h.1,h.2.1⟩

structure FrameOk (image : KernelImage) (es : List MemoryMapEntry) (s : ℕ) : Prop where
  aligned : pageSize ∣ s
  high : lowMemoryReservedEnd ≤ s
  inside : ∃ e ∈ es, e.isAvailable ∧ page s ⊆ e.region
  clear : Disjoint (page s) (Set.Ico image.kernelStart image.kernelEnd)

/-- No region begins in the last page below 4 GiB, unless an earlier region covers that page
and stops the walk. -/
def NoWrap : List MemoryMapEntry → Prop
  | [] => True
  | e::es => ¬ Wraps e ∧ (Overflows e ∨ NoWrap es)

theorem frameOk_of_usable {e : MemoryMapEntry} {s : ℕ} (he : e ∈ es)
    (hs : s ∈ framesIn image e) : FrameOk image es s := by
  obtain ⟨⟨hdvd,-⟩,hav,hfloor,hlast,hclear⟩ := mem_framesIn.mp hs
  have hle := regionEnd_le e
  unfold MemoryMapEntry.allocationFloor at hfloor
  refine ⟨hdvd,by omega,⟨e,he,hav,page_subset_region.mpr ⟨by omega,by omega⟩⟩,?_⟩
  exact ((clear_iff hdvd).mp hclear).mono_right
    (Set.Ico_subset_Ico_right (roundedEnd_spec image).2.1)

theorem framesLeft_subset {e : MemoryMapEntry} {cur : Option ℕ} {s : ℕ}
    (hs : s ∈ framesLeft image e cur) : s ∈ framesIn image e := by
  cases cur with
  | none => exact hs
  | some c => exact List.mem_of_mem_filter hs

/-- The walk has not met a region that wraps and will not reach one. -/
inductive Safe (info : MultibootInfo) (es : List MemoryMapEntry) : BumpAllocator → Prop
  | done : Safe info es (stateAt info es es.length none)
  | inside {before after : List MemoryMapEntry} {e : MemoryMapEntry} {cur : Option ℕ}
      (hes : es = before++e::after) (hwrap : NoWrap (e::after))
      (hcur : ∀ c, cur = some c → CursorOk e c) : Safe info es (stateAt info es before.length cur)

theorem safe_before (before : List MemoryMapEntry) {after : List MemoryMapEntry}
    (hes : es = before++after) (hwrap : NoWrap after) :
    Safe info es (stateAt info es before.length none) := by
  cases after with
  | nil =>
    rw [List.append_nil] at hes
    rw [← hes]
    exact .done
  | cons e after => exact .inside hes hwrap (by simp)

theorem safe_call (h : WellFormedMap mem info es) (hp : image.Placed) {a : BumpAllocator}
    (ha : Safe info es a) : ∀ result a', allocateFrame mem image a = .ok (result,a') →
      Safe info es a' ∧ ∀ f, result = some f → FrameOk image es f.startAddress := by
  cases ha with
  | done =>
    intro result a' hcall
    rw [allocateFrame_end] at hcall
    cases hcall
    exact ⟨.done,by simp⟩
  | @inside before after e cur hes hwrap hcur =>
    intro result a' hcall
    obtain ⟨hfirst,hrest⟩ := id hwrap
    rcases allocateFrame_cases h hp hes hcur hfirst with
      ⟨s,hs,hnext,hstep⟩ | ⟨-,hlast,hstep⟩ | ⟨-,hstep⟩
    · rw [hstep] at hcall
      cases hcall
      refine ⟨.inside hes hwrap (by rintro c ⟨⟩; exact hnext),?_⟩
      rintro f ⟨⟩
      have hmem : s ∈ framesIn image e := framesLeft_subset (by rw [hs]; simp)
      exact frameOk_of_usable (by simp [hes]) hmem
    · rw [hstep] at hcall
      exact safe_call h hp (safe_before (before++[e]) (by simp [hes]) (hrest.resolve_left hlast)) _ _ hcall
    · rw [hstep] at hcall
      cases hcall
termination_by a.memoryMapLength - a.currentMmapOffset
decreasing_by
  simp only [stateAt,hes,List.length_append,List.length_cons,List.length_nil]
  omega

theorem safe_run (h : WellFormedMap mem info es) (hp : image.Placed) {n : ℕ} {a a' : BumpAllocator}
    (ha : Safe info es a) {frames : List (Option PhysFrame)}
    (hrun : allocateFrames mem image n a = .ok (frames,a')) :
    ∀ f, some f ∈ frames → FrameOk image es f.startAddress := by
  induction n generalizing a frames with
  | zero =>
    cases hrun
    simp
  | succ n ih =>
    obtain ⟨⟨result,a₁⟩,hcall,hrun⟩ := bind_eq_ok.mp hrun
    obtain ⟨⟨rest,a₂⟩,hrest,hrun⟩ := bind_eq_ok.mp hrun
    cases hrun
    obtain ⟨hsafe,hgood⟩ := safe_call h hp ha _ _ hcall
    intro f hf
    rcases List.mem_cons.mp hf with hf | hf
    · exact hgood f hf.symm
    · exact ih hsafe hrest f hf

theorem exists_wrap_of_not_noWrap (h : ¬ NoWrap es) :
    ∃ seg e after, es = seg++e::after ∧ (∀ e' ∈ seg, ¬ Wraps e' ∧ ¬ Overflows e') ∧ Wraps e := by
  induction es with
  | nil => exact absurd trivial h
  | cons e es ih =>
    by_cases hwrap : Wraps e
    · exact ⟨[],e,es,rfl,by simp,hwrap⟩
    · have hrest : ¬ (Overflows e ∨ NoWrap es) := fun hrest => h ⟨hwrap,hrest⟩
      obtain ⟨hlast,hrest⟩ := not_or.mp hrest
      obtain ⟨seg,e',after,rfl,htame,hwrap'⟩ := ih hrest
      refine ⟨e::seg,e',after,rfl,?_,hwrap'⟩
      intro x hx
      rcases List.mem_cons.mp hx with rfl | hx
      · exact ⟨hwrap,hlast⟩
      · exact htame x hx

theorem cursor_wraps {e : MemoryMapEntry} (hwrap : Wraps e) (i : ℕ) :
    (stateAt info es i none).cursor e = .ok 0 := by
  obtain ⟨hroomy,hlow⟩ := hwrap
  have hword := hroomy.2.2
  have hround : roundUp e.allocationFloor pageSize = 2^32 := by
    simp only [pageSize] at hlow ⊢
    have hrem : ¬ e.allocationFloor % 4096 = 0 := by omega
    rw [roundUp,if_neg hrem]
    omega
  rw [cursor_first rfl hroomy,hround]
  rfl

/-- In front of a region that wraps, a call hands out the frame at address 0. -/
theorem allocateFrame_wraps (h : WellFormedMap mem info es) (hp : image.Placed)
    (hlow : lowMemoryReservedEnd ≤ image.kernelStart) {before after : List MemoryMapEntry}
    {e : MemoryMapEntry} (hes : es = before++e::after) (hwrap : Wraps e) :
    ∃ a, allocateFrame mem image (stateAt info es before.length none) = .ok (some ⟨0⟩,a) := by
  have hi : before.length < es.length := by simp [hes]
  have he : es[before.length] = e := by simp [hes]
  have hclear : skipKernel image (roundedEnd image) 0 = 0 := by
    apply if_neg
    simp only [lowMemoryReservedEnd] at hlow
    simp only [saturatingAdd,pageSize]
    omega
  have hroom : 4096 ≤ e.regionEnd := by
    obtain ⟨⟨-,hroom,-⟩,hfloor⟩ := hwrap
    simp only [pageSize] at hfloor
    omega
  refine ⟨stateAt info es before.length (some pageSize),?_⟩
  rw [allocateFrame_stateAt h hi,visitEntry_of_roomy (by rw [he]; exact hwrap.1),
    takeFrame_eq h hp hi (by rw [he]; exact cursor_wraps hwrap _) hclear,he,if_pos ⟨hroom,by decide⟩]
  rfl

theorem pending_then_zero (h : WellFormedMap mem info es) (hp : image.Placed)
    (hlow : lowMemoryReservedEnd ≤ image.kernelStart) {after : List MemoryMapEntry}
    {e : MemoryMapEntry} (hwrap : Wraps e) {frames : List ℕ} {a : BumpAllocator}
    (ha : Pending image info es (e::after) a frames) :
    ∃ n results a', allocateFrames mem image n a = .ok (results,a') ∧ some ⟨0⟩ ∈ results := by
  induction frames generalizing a with
  | nil =>
    rcases pending_call h hp ha with ⟨s,rest,a',hcons,-⟩ | ⟨-,before,hes,hcall⟩
    · cases hcons
    · obtain ⟨a',hzero⟩ := allocateFrame_wraps h hp hlow hes hwrap
      exact ⟨1,[some ⟨0⟩],a',by simp [allocateFrames,hcall,hzero,bind,Except.bind],by simp⟩
  | cons s frames ih =>
    rcases pending_call h hp ha with ⟨s',rest,a',hcons,hcall,hrest⟩ | ⟨hnil,-⟩
    · cases hcons
      obtain ⟨n,results,a'',hrun,hmem⟩ := ih hrest
      exact ⟨n+1,some ⟨s⟩::results,a'',by simp [allocateFrames,hcall,hrun,bind,Except.bind],by simp [hmem]⟩
    · cases hnil

/-- The allocator is sound on a map exactly when its walk meets no region that begins in the
last page below 4 GiB. -/
theorem allocateFrames_sound_iff (h : WellFormedMap mem info es) (hp : image.Placed)
    (hlow : lowMemoryReservedEnd ≤ image.kernelStart) :
    (∀ n frames a, allocateFrames mem image n (BumpAllocator.new info) = .ok (frames,a) →
      ∀ f, some f ∈ frames → FrameOk image es f.startAddress) ↔ NoWrap es := by
  rw [new_eq h]
  constructor
  · intro hsound
    by_contra hwrap
    obtain ⟨seg,e,after,hes,htame,hwrap⟩ := exists_wrap_of_not_noWrap hwrap
    have hstart : Pending image info es (e::after) (stateAt info es 0 none) _ :=
      pending_before [] hes htame
    obtain ⟨n,results,a,hrun,hmem⟩ := pending_then_zero h hp hlow hwrap hstart
    have hzero := (hsound n results a hrun ⟨0⟩ hmem).high
    simp [lowMemoryReservedEnd] at hzero
  · intro hwrap n frames a hrun
    exact safe_run h hp (safe_before [] rfl hwrap) hrun

theorem twoRegions_sound : NoWrap twoRegions ∧
    ∀ n frames a, allocateFrames (layOut 0x9000 twoRegions) smallImage n
        (BumpAllocator.new (infoOf 0x9000 twoRegions)) = .ok (frames,a) →
      ∀ f, some f ∈ frames → FrameOk smallImage twoRegions f.startAddress := by
  have hnowrap : NoWrap twoRegions := by
    refine ⟨?_,Or.inr ⟨?_,Or.inr trivial⟩⟩ <;> exact (tame_of_below (by decide)).1
  exact ⟨hnowrap,(allocateFrames_sound_iff (layOut_wellFormed (by decide) (by decide))
    ⟨by decide,by decide⟩ (by decide)).mpr hnowrap⟩

/-- One available region that begins in the last page below 4 GiB and crosses it. -/
def topRegion : MemoryMapEntry := ⟨20,0xFFFFF800,0,0x1000,0,1⟩

theorem topRegion_gives_zero :
    WellFormedMap (layOut 0x9000 [topRegion]) (infoOf 0x9000 [topRegion]) [topRegion] ∧
    smallImage.Placed ∧ lowMemoryReservedEnd ≤ smallImage.kernelStart ∧
    allocateFrame (layOut 0x9000 [topRegion]) smallImage (BumpAllocator.new (infoOf 0x9000 [topRegion])) =
      .ok (some ⟨0⟩,⟨0x9000,24,some 4096,0⟩) ∧ ¬ FrameOk smallImage [topRegion] 0 := by
  refine ⟨layOut_wellFormed (by decide) (by decide),⟨by decide,by decide⟩,by decide,?_,?_⟩
  · decide +kernel
  · intro hok
    exact absurd hok.high (by decide)

end FrameAllocator
end EnosKernel
