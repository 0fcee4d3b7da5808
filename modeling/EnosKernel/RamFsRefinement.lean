import EnosKernel.RamFs
import EnosKernel.KeyedList
import Mathlib.Data.Finmap

/-! The RAM filesystem refines a bounded finite map from names to contents.  The vector
represents the map while its names are distinct, and every operation keeps that. -/
namespace EnosKernel
namespace RamFs

open MachineArith

theorem writeFile_split {name : String} {files : Files} {old : String}
    (h : readFile name files = .ok old) : ∃ before file after, files = before++file::after ∧
      file.name = name ∧ file.contents = old ∧ (∀ other ∈ before, other.name ≠ name) ∧
      ∀ content, (writeFile name content files).2 =
        if maxFileSize < content.utf8ByteSize then files
        else before++{ file with contents := content }::after := by
  cases hidx : files.findIdx? (·.name == name) with
  | none =>
    have hnone : files.find? (·.name == name) = none := by
      rw [List.find?_eq_none]
      simpa using hidx
    simp [readFile,hnone] at h
  | some idx =>
    obtain ⟨before,file,after,rfl,rfl,hname,hbefore⟩ := KeyedList.split_of_findIdx? hidx
    have hfirst : before.find? (·.name == name) = none := by simpa using hbefore
    simp only [beq_iff_eq] at hname
    refine ⟨before,file,after,rfl,hname,?_,by simpa using hbefore,fun content => ?_⟩
    · simpa [readFile,List.find?_append,hfirst,hname] using h
    · unfold writeFile
      split_ifs with hsize
      · rfl
      · simp only [hidx]
        rw [KeyedList.modify_split]

theorem readFile_writeFile {name content : String} {files : Files} {old : String}
    (h : readFile name files = .ok old) (hsize : content.utf8ByteSize ≤ maxFileSize) :
    readFile name (writeFile name content files).2 = .ok content := by
  obtain ⟨before,file,after,-,hname,-,hbefore,hwrite⟩ := writeFile_split h
  have hfirst : before.find? (·.name == name) = none := by simpa using hbefore
  rw [hwrite,if_neg (by omega)]
  simp [readFile,List.find?_append,hfirst,hname]

theorem readFile_writeFile_of_ne {name other content : String} {files : Files} {old : String}
    (h : readFile name files = .ok old) (hne : other ≠ name) :
    readFile other (writeFile name content files).2 = readFile other files := by
  obtain ⟨before,file,after,rfl,hname,-,-,hwrite⟩ := writeFile_split h
  have hfile : (file.name == other) = false := by simpa [hname] using hne.symm
  rw [hwrite]
  split_ifs
  · rfl
  · simp [readFile,List.find?_append,hfile]

/-- The reference model: a finite map with at most `maxFiles` names. -/
abbrev FileMap := Finmap fun _ : String => String

namespace FileMap

def sizeAt (m : FileMap) (name : String) : ℕ := ((m.lookup name).getD "").utf8ByteSize

def createFile (name : String) (m : FileMap) : Except String Unit × FileMap :=
  if ¬ isValidName name then (.error "invalid file name",m)
  else if name ∈ m then (.error "file already exists",m)
  else if maxFiles ≤ m.keys.card then (.error "file table is full",m)
  else (.ok (),m.insert name "")

def writeFile (name content : String) (m : FileMap) : Except String Unit × FileMap :=
  if maxFileSize < content.utf8ByteSize then (.error "content too large",m)
  else if name ∈ m then (.ok (),m.insert name content)
  else (.error "file not found",m)

def deleteFile (name : String) (m : FileMap) : Except String Unit × FileMap :=
  if name ∈ m then (.ok (),m.erase name) else (.error "file not found",m)

def readFile (name : String) (m : FileMap) : Except String String :=
  match m.lookup name with
  | none => .error "file not found"
  | some contents => .ok contents

def listFiles (m : FileMap) : Multiset FileInfo := m.keys.val.map fun name => ⟨name,m.sizeAt name⟩

def stats (m : FileMap) : FsStats :=
  ⟨m.keys.card,∑ name ∈ m.keys,m.sizeAt name,RamFs.maxFiles,RamFs.maxFileSize⟩

def exec (m : FileMap) : Op → Reply (Multiset FileInfo) × FileMap
  | .createFile name => (.done (createFile name m).1,(createFile name m).2)
  | .writeFile name content => (.done (writeFile name content m).1,(writeFile name content m).2)
  | .deleteFile name => (.done (deleteFile name m).1,(deleteFile name m).2)
  | .readFile name => (.contents (readFile name m),m)
  | .listFiles => (.listing (listFiles m),m)
  | .stats => (.stats (stats m),m)

def run (m : FileMap) : List Op → List (Reply (Multiset FileInfo)) × FileMap
  | [] => ([],m)
  | op::ops => ((exec m op).1::(run (exec m op).2 ops).1,(run (exec m op).2 ops).2)

end FileMap

/-- The order of a listing is forgotten. -/
def Reply.unordered : Reply (List FileInfo) → Reply (Multiset FileInfo)
  | .done result => .done result
  | .contents result => .contents result
  | .listing infos => .listing infos
  | .stats s => .stats s

/-- The vector holds each name once, and what it holds is the map. -/
structure Represents (files : Files) (m : FileMap) : Prop where
  nodup : (files.map FileEntry.name).Nodup
  lookup : ∀ name contents, m.lookup name = some contents ↔ ⟨name,contents⟩ ∈ files

namespace Represents

variable {files : Files} {m : FileMap}

theorem empty : Represents [] ∅ := ⟨List.nodup_nil,by simp⟩

theorem mem_iff (h : Represents files m) (name : String) :
    name ∈ m ↔ ∃ file ∈ files, file.name = name := by
  rw [← Finmap.lookup_isSome,Option.isSome_iff_exists]
  constructor
  · rintro ⟨contents,hlookup⟩
    exact ⟨_,(h.lookup name contents).mp hlookup,rfl⟩
  · rintro ⟨file,hfile,rfl⟩
    exact ⟨file.contents,(h.lookup _ _).mpr hfile⟩

theorem keys_eq (h : Represents files m) : m.keys = (files.map FileEntry.name).toFinset := by
  ext name
  rw [Finmap.mem_keys,h.mem_iff,List.mem_toFinset,List.mem_map]

theorem card_eq (h : Represents files m) : m.keys.card = files.length := by
  rw [h.keys_eq,List.toFinset_card_of_nodup h.nodup,List.length_map]

theorem any_iff (h : Represents files m) (name : String) :
    files.any (·.name == name) = true ↔ name ∈ m := by
  simp [h.mem_iff]

theorem sizeAt_eq (h : Represents files m) {file : FileEntry} (hfile : file ∈ files) :
    m.sizeAt file.name = file.contents.utf8ByteSize := by
  rw [FileMap.sizeAt,(h.lookup _ _).mpr hfile,Option.getD_some]

theorem create (h : Represents files m) {name : String} (hname : name ∉ m) :
    Represents (files++[⟨name,""⟩]) (m.insert name "") where
  nodup := by
    rw [List.map_append,List.nodup_append]
    refine ⟨h.nodup,List.nodup_singleton _,?_⟩
    rintro _ hold _ hnew rfl
    obtain ⟨file,hfile,rfl⟩ := List.mem_map.mp hold
    simp only [List.map_cons,List.map_nil,List.mem_singleton] at hnew
    exact hname ((h.mem_iff name).mpr ⟨file,hfile,hnew⟩)
  lookup := by
    intro name' contents
    simp only [List.mem_append,List.mem_singleton,FileEntry.mk.injEq]
    by_cases heq : name' = name
    · subst heq
      have hfresh : ⟨name',contents⟩ ∉ files := fun hfile => hname ((h.mem_iff _).mpr ⟨_,hfile,rfl⟩)
      simp [hfresh,eq_comm]
    · simp [Finmap.lookup_insert_of_ne m heq,h.lookup,heq]

theorem split (h : Represents files m) {name : String} {idx : ℕ}
    (hidx : files.findIdx? (·.name == name) = some idx) :
    ∃ before file after, files = before++file::after ∧ before.length = idx ∧ file.name = name ∧
      name ∈ m := by
  obtain ⟨before,file,after,rfl,hlength,hname,-⟩ := KeyedList.split_of_findIdx? hidx
  have hname : file.name = name := by simpa using hname
  exact ⟨before,file,after,rfl,hlength,hname,(h.mem_iff name).mpr ⟨file,by simp,hname⟩⟩

theorem notMem_of_findIdx? (h : Represents files m) {name : String}
    (hidx : files.findIdx? (·.name == name) = none) : name ∉ m := by
  rw [h.mem_iff]
  rintro ⟨file,hfile,hname⟩
  have := List.findIdx?_eq_none_iff.mp hidx file hfile
  simp [hname] at this

theorem write {before after : Files} {file : FileEntry} (h : Represents (before++file::after) m)
    (content : String) :
    Represents (before++{ file with contents := content }::after) (m.insert file.name content) where
  nodup := by simpa using h.nodup
  lookup := by
    intro name contents
    rw [KeyedList.mem_replace_iff h.nodup,← h.lookup,FileEntry.mk.injEq]
    by_cases heq : name = file.name
    · subst heq
      simp [eq_comm]
    · simp [Finmap.lookup_insert_of_ne m heq,heq]

theorem delete {before after : Files} {file : FileEntry} (h : Represents (before++file::after) m) :
    Represents (before++after) (m.erase file.name) where
  nodup := by
    refine h.nodup.sublist (List.Sublist.map _ ?_)
    exact (List.Sublist.refl before).append (List.sublist_cons_self _ _)
  lookup := by
    intro name contents
    rw [KeyedList.mem_remove_iff h.nodup,← h.lookup]
    by_cases heq : name = file.name
    · subst heq
      simp
    · simp [Finmap.lookup_erase_ne heq,heq]

end Represents

structure Bounded (files : Files) : Prop where
  count : files.length ≤ maxFiles
  names : ∀ file ∈ files, isValidName file.name = true
  sizes : ∀ file ∈ files, file.contents.utf8ByteSize ≤ maxFileSize

def totalSize (files : Files) : ℕ := (files.map fun file => file.contents.utf8ByteSize).sum

theorem foldl_saturatingAdd {files : Files} {total : ℕ} (h : total+totalSize files < 2^32) :
    files.foldl (fun total file => saturatingAdd 32 total file.contents.utf8ByteSize) total =
      total+totalSize files := by
  induction files generalizing total with
  | nil => rfl
  | cons file files ih =>
    simp only [totalSize,List.map_cons,List.sum_cons] at h ih ⊢
    rw [List.foldl_cons,saturatingAdd_of_lt (by omega),ih (by omega)]
    omega

/-- Within the bounds the saturating sum is the exact one. -/
theorem stats_totalBytes {files : Files} (h : Bounded files) :
    (stats files).totalBytes = totalSize files := by
  have hsum : totalSize files ≤ files.length*maxFileSize := by
    have := List.sum_le_card_nsmul (files.map fun file => file.contents.utf8ByteSize) maxFileSize
      (by simpa using h.sizes)
    simpa [totalSize] using this
  have hcount := Nat.mul_le_mul_right maxFileSize h.count
  have hbound : maxFiles*maxFileSize < 2^32 := by decide
  have hfold := foldl_saturatingAdd (show 0+totalSize files < 2^32 by omega)
  rw [Nat.zero_add] at hfold
  exact hfold

namespace Bounded

variable {files : Files}

theorem create (h : Bounded files) {name : String} (hname : isValidName name = true)
    (hroom : files.length < maxFiles) : Bounded (files++[⟨name,""⟩]) where
  count := by simpa using hroom
  names := by
    intro file hfile
    rcases List.mem_append.mp hfile with hfile | hfile
    · exact h.names file hfile
    · rw [List.mem_singleton.mp hfile]
      exact hname
  sizes := by
    intro file hfile
    rcases List.mem_append.mp hfile with hfile | hfile
    · exact h.sizes file hfile
    · rw [List.mem_singleton.mp hfile]
      exact Nat.zero_le _

theorem delete {before after : Files} {file : FileEntry} (h : Bounded (before++file::after)) :
    Bounded (before++after) := by
  have hsub : before++after ⊆ before++file::after := by
    intro x hx
    simp only [List.mem_append,List.mem_cons] at hx ⊢
    tauto
  have hcount := h.count
  simp only [List.length_append,List.length_cons] at hcount
  exact ⟨by simp only [List.length_append]; omega,fun x hx => h.names x (hsub hx),fun x hx => h.sizes x (hsub hx)⟩

theorem write {before after : Files} {file : FileEntry} (h : Bounded (before++file::after))
    {content : String} (hsize : content.utf8ByteSize ≤ maxFileSize) :
    Bounded (before++{ file with contents := content }::after) := by
  refine ⟨by simpa using h.count,?_,?_⟩
  · intro x hx
    rcases List.mem_append.mp hx with hx | hx
    · exact h.names x (by simp [hx])
    · rcases List.mem_cons.mp hx with rfl | hx
      · exact h.names file (by simp)
      · exact h.names x (by simp [hx])
  · intro x hx
    rcases List.mem_append.mp hx with hx | hx
    · exact h.sizes x (by simp [hx])
    · rcases List.mem_cons.mp hx with rfl | hx
      · exact hsize
      · exact h.sizes x (by simp [hx])

end Bounded

/-- The vector represents the map and keeps its bounds. -/
structure Refines (files : Files) (m : FileMap) : Prop where
  represents : Represents files m
  bounded : Bounded files

namespace Refines

variable {files : Files} {m : FileMap}

theorem empty : Refines [] ∅ := ⟨.empty,Nat.zero_le _,by simp,by simp⟩

theorem createFile (h : Refines files m) (name : String) :
    (RamFs.createFile name files).1 = (m.createFile name).1 ∧
      Refines (RamFs.createFile name files).2 (m.createFile name).2 := by
  unfold RamFs.createFile FileMap.createFile
  by_cases hvalid : isValidName name = true
  · by_cases hmem : name ∈ m
    · simp [hvalid,hmem,(h.represents.any_iff name).mpr hmem,h]
    · have hany : ¬ files.any (·.name == name) = true := fun hany => hmem ((h.represents.any_iff name).mp hany)
      by_cases hfull : maxFiles ≤ files.length
      · rw [if_neg (by simpa using hvalid),if_neg hany,if_pos hfull,if_neg (by simpa using hvalid),
          if_neg hmem,if_pos (by rwa [h.represents.card_eq])]
        exact ⟨rfl,h⟩
      · rw [if_neg (by simpa using hvalid),if_neg hany,if_neg hfull,if_neg (by simpa using hvalid),
          if_neg hmem,if_neg (by rwa [h.represents.card_eq])]
        exact ⟨rfl,h.represents.create hmem,h.bounded.create hvalid (not_le.mp hfull)⟩
  · rw [if_pos hvalid,if_pos hvalid]
    exact ⟨rfl,h⟩

theorem deleteFile (h : Refines files m) (name : String) :
    (RamFs.deleteFile name files).1 = (m.deleteFile name).1 ∧
      Refines (RamFs.deleteFile name files).2 (m.deleteFile name).2 := by
  unfold RamFs.deleteFile FileMap.deleteFile
  cases hidx : files.findIdx? (·.name == name) with
  | none =>
    rw [if_neg (h.represents.notMem_of_findIdx? hidx)]
    exact ⟨rfl,h⟩
  | some idx =>
    obtain ⟨before,file,after,rfl,rfl,rfl,hmem⟩ := h.represents.split hidx
    rw [if_pos hmem]
    dsimp only
    rw [KeyedList.eraseIdx_split]
    exact ⟨rfl,h.represents.delete,h.bounded.delete⟩

theorem writeFile (h : Refines files m) (name content : String) :
    (RamFs.writeFile name content files).1 = (m.writeFile name content).1 ∧
      Refines (RamFs.writeFile name content files).2 (m.writeFile name content).2 := by
  unfold RamFs.writeFile FileMap.writeFile
  by_cases hsize : maxFileSize < content.utf8ByteSize
  · rw [if_pos hsize,if_pos hsize]
    exact ⟨rfl,h⟩
  · rw [if_neg hsize,if_neg hsize]
    cases hidx : files.findIdx? (·.name == name) with
    | none =>
      rw [if_neg (h.represents.notMem_of_findIdx? hidx)]
      exact ⟨rfl,h⟩
    | some idx =>
      obtain ⟨before,file,after,rfl,rfl,rfl,hmem⟩ := h.represents.split hidx
      rw [if_pos hmem]
      dsimp only
      rw [KeyedList.modify_split]
      exact ⟨rfl,h.represents.write content,h.bounded.write (not_lt.mp hsize)⟩

theorem readFile (h : Refines files m) (name : String) :
    RamFs.readFile name files = m.readFile name := by
  unfold RamFs.readFile FileMap.readFile
  cases hfind : files.find? (·.name == name) with
  | none =>
    cases hlookup : m.lookup name with
    | none => rfl
    | some contents =>
      have hfile := (h.represents.lookup name contents).mp hlookup
      have := List.find?_eq_none.mp hfind _ hfile
      simp at this
  | some file =>
    obtain ⟨hfile,rfl⟩ := (KeyedList.find?_eq_some_iff h.represents.nodup).mp hfind
    rw [(h.represents.lookup file.name file.contents).mpr hfile]

theorem listFiles (h : Refines files m) : (RamFs.listFiles files : Multiset FileInfo) = m.listFiles := by
  have hkeys : m.keys.val = (files.map FileEntry.name : List String) := by
    rw [h.represents.keys_eq,List.toFinset_val,h.represents.nodup.dedup]
  rw [FileMap.listFiles,hkeys,Multiset.map_coe,List.map_map,RamFs.listFiles]
  congr 1
  apply List.map_congr_left
  intro file hfile
  simp [h.represents.sizeAt_eq hfile]

theorem stats (h : Refines files m) : RamFs.stats files = m.stats := by
  have hsum : totalSize files = ∑ name ∈ m.keys,m.sizeAt name := by
    rw [h.represents.keys_eq,List.sum_toFinset _ h.represents.nodup,List.map_map,totalSize]
    congr 1
    apply List.map_congr_left
    intro file hfile
    simp [h.represents.sizeAt_eq hfile]
  have htotal := stats_totalBytes h.bounded
  rw [FileMap.stats,← hsum,← htotal,h.represents.card_eq]
  rfl

/-- One call: the same reply, and the two states still correspond. -/
theorem exec (h : Refines files m) (op : Op) :
    (op.exec files).1.unordered = (m.exec op).1 ∧ Refines (op.exec files).2 (m.exec op).2 := by
  cases op with
  | createFile name =>
    obtain ⟨hreply,hnext⟩ := h.createFile name
    exact ⟨congrArg Reply.done hreply,hnext⟩
  | writeFile name content =>
    obtain ⟨hreply,hnext⟩ := h.writeFile name content
    exact ⟨congrArg Reply.done hreply,hnext⟩
  | deleteFile name =>
    obtain ⟨hreply,hnext⟩ := h.deleteFile name
    exact ⟨congrArg Reply.done hreply,hnext⟩
  | readFile name => exact ⟨congrArg Reply.contents (h.readFile name),h⟩
  | listFiles => exact ⟨congrArg Reply.listing h.listFiles,h⟩
  | stats => exact ⟨congrArg Reply.stats h.stats,h⟩

theorem run (h : Refines files m) (ops : List Op) :
    (RamFs.run files ops).1.map Reply.unordered = (m.run ops).1 ∧
      Refines (RamFs.run files ops).2 (m.run ops).2 := by
  induction ops generalizing files m with
  | nil => exact ⟨rfl,h⟩
  | cons op ops ih =>
    obtain ⟨hreply,hnext⟩ := h.exec op
    obtain ⟨hreplies,hlast⟩ := ih hnext
    exact ⟨by rw [RamFs.run,List.map_cons,hreply,hreplies]; rfl,hlast⟩

end Refines

def Op.target : Op → Option String
  | .createFile name => some name
  | .writeFile name _ => some name
  | .deleteFile name => some name
  | .readFile name => some name
  | .listFiles => none
  | .stats => none

theorem FileMap.lookup_exec (m : FileMap) {op : Op} {other : String} (h : op.target ≠ some other) :
    (m.exec op).2.lookup other = m.lookup other := by
  cases op with
  | createFile name =>
    have hne : other ≠ name := fun heq => h (congrArg some heq.symm)
    simp only [FileMap.exec,FileMap.createFile]
    split_ifs <;> first | rfl | exact Finmap.lookup_insert_of_ne m hne
  | writeFile name content =>
    have hne : other ≠ name := fun heq => h (congrArg some heq.symm)
    simp only [FileMap.exec,FileMap.writeFile]
    split_ifs <;> first | rfl | exact Finmap.lookup_insert_of_ne m hne
  | deleteFile name =>
    have hne : other ≠ name := fun heq => h (congrArg some heq.symm)
    simp only [FileMap.exec,FileMap.deleteFile]
    split_ifs <;> first | rfl | exact Finmap.lookup_erase_ne hne
  | readFile name => rfl
  | listFiles => rfl
  | stats => rfl

theorem exec_of_failed {files : Files} {op : Op} (h : (op.exec files).1.failed) :
    (op.exec files).2 = files := by
  cases op with
  | createFile name =>
    simp only [Op.exec,createFile] at h ⊢
    split_ifs at h ⊢ <;> first | rfl | exact h.elim
  | writeFile name content =>
    simp only [Op.exec,writeFile] at h ⊢
    split_ifs at h ⊢
    · rfl
    · cases hidx : files.findIdx? (·.name == name) with
      | none => rfl
      | some idx =>
        rw [hidx] at h
        exact h.elim
  | deleteFile name =>
    simp only [Op.exec,deleteFile] at h ⊢
    cases hidx : files.findIdx? (·.name == name) with
    | none => rfl
    | some idx =>
      rw [hidx] at h
      exact h.elim
  | readFile name => rfl
  | listFiles => rfl
  | stats => rfl

theorem Refines.readFile_exec {files : Files} {m : FileMap} (h : Refines files m) {op : Op}
    {other : String} (hother : op.target ≠ some other) :
    RamFs.readFile other (op.exec files).2 = RamFs.readFile other files := by
  rw [(h.exec op).2.readFile,h.readFile,FileMap.readFile,FileMap.readFile,m.lookup_exec hother]

/-- Every sequence of calls on the empty filesystem replies as the reference map does; in
the state it reaches names are distinct and valid, the bounds and the byte count hold,
failed calls change nothing, and a call about one name leaves the others alone. -/
theorem filesystem_refines (ops : List Op) :
    (run [] ops).1.map Reply.unordered = (FileMap.run ∅ ops).1 ∧
    ((run [] ops).2.map FileEntry.name).Nodup ∧ Bounded (run [] ops).2 ∧
    (stats (run [] ops).2).totalBytes = totalSize (run [] ops).2 ∧
    ∀ op : Op, ((op.exec (run [] ops).2).1.failed → (op.exec (run [] ops).2).2 = (run [] ops).2) ∧
      ∀ other, op.target ≠ some other →
        readFile other (op.exec (run [] ops).2).2 = readFile other (run [] ops).2 := by
  obtain ⟨hreplies,hlast⟩ := Refines.empty.run ops
  refine ⟨hreplies,hlast.represents.nodup,hlast.bounded,stats_totalBytes hlast.bounded,?_⟩
  intro op
  exact ⟨exec_of_failed,fun other hother => hlast.readFile_exec hother⟩

end RamFs
end EnosKernel
