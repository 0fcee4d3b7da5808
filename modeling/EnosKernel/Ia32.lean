import EnosKernel.ByteMemory

/-! The part of a 32-bit x86 processor that interrupts go through: the stack, the frames that
an interrupt and `pushad` build on it, the way back with `popad` and `iretd`, and straight-line
entry code that calls into a kernel. -/
namespace EnosKernel
namespace Ia32

open ByteMemory

inductive Reg
  | eax | ecx | edx | ebx | esp | ebp | esi | edi
  deriving DecidableEq, Repr

/-- The registers that the frames of an interrupt hold: the general ones, the instruction pointer, the
flags, the code segment and the stack segment. -/
@[ext] structure Context where
  regs : Reg → UInt32
  eip : UInt32
  eflags : UInt32
  cs : UInt32
  ss : UInt32

structure Cpu extends Context where
  memory : Memory
  cr2 : UInt32

/-- The privilege level in a code selector. -/
def ring (selector : UInt32) : UInt32 := selector &&& 3

/-- The stack that the task state segment holds for the kernel. -/
structure Tss where
  esp0 : UInt32
  ss0 : UInt32
  deriving DecidableEq, Repr

structure Gate where
  selector : UInt32
  offset : UInt32
  deriving DecidableEq, Repr

def interruptFlag : UInt32 := 0x200

/-- CF, PF, AF, ZF, SF and OF. -/
def arithmeticFlags : UInt32 := 0x8D5

namespace Context

/-- The frame that an interrupt leaves on the kernel's stack, from the low end. -/
def trapFrame (x : Context) : List UInt32 :=
  [x.eip,x.cs,x.eflags] ++ if ring x.cs = 0 then [] else [x.regs .esp,x.ss]

/-- The words of `pushad` from the low end, with the word that `popad` skips. -/
def pushadWords (x : Context) (skipped : UInt32) : List UInt32 :=
  [x.regs .edi,x.regs .esi,x.regs .ebp,skipped,x.regs .ebx,x.regs .edx,x.regs .ecx,x.regs .eax]

def kernelEsp (x : Context) (tss : Tss) : UInt32 := if ring x.cs = 0 then x.regs .esp else tss.esp0

def frameSize (x : Context) : ℕ := 4*(8+x.trapFrame.length)

theorem frameSize_eq (x : Context) : x.frameSize = if ring x.cs = 0 then 44 else 52 := by
  unfold frameSize trapFrame
  split_ifs <;> rfl

theorem pushadWords_congr {x y : Context} (h : ∀ r, r ≠ .esp → x.regs r = y.regs r) (skipped : UInt32) :
    x.pushadWords skipped = y.pushadWords skipped := by simp [pushadWords,h]

end Context

namespace Cpu

def set (c : Cpu) (r : Reg) (x : UInt32) : Cpu := { c with regs := Function.update c.regs r x }

def top (c : Cpu) : UInt32 := read c.memory (c.regs .esp)

def pushes (c : Cpu) (ws : List UInt32) : Cpu :=
  let (m,sp) := stored c.memory (c.regs .esp) ws
  { c.set .esp sp with memory := m }

def push (c : Cpu) (x : UInt32) : Cpu := c.pushes [x]

def discard (c : Cpu) : Cpu := c.set .esp (c.regs .esp+4)

def pop (c : Cpu) (r : Reg) : Cpu := c.discard.set r c.top

/-- The eight registers in the order in which they are pushed, the stack pointer as it was. -/
def pushad (c : Cpu) : Cpu :=
  c.pushes ([.eax,.ecx,.edx,.ebx,.esp,.ebp,.esi,.edi].map c.regs)

/-- The saved stack pointer is skipped. -/
def popad (c : Cpu) : Cpu :=
  ((((((((c.pop .edi).pop .esi).pop .ebp).discard).pop .ebx).pop .edx).pop .ecx).pop .eax)

/-- A return to another privilege level takes the stack from the frame too. -/
def iretd (c : Cpu) : Cpu :=
  let cs := c.discard.top
  let flags := c.discard.discard
  let behind := { flags.discard with eip := c.top, cs := cs, eflags := flags.top }
  if ring cs = ring c.cs then behind
  else { behind.set .esp behind.top with ss := behind.discard.top }

def onKernelStack (c : Cpu) (tss : Tss) : Cpu :=
  { c.set .esp (c.kernelEsp tss) with ss := if ring c.cs = 0 then c.ss else tss.ss0 }

/-- The way through an interrupt gate to the kernel: the frame is pushed, then the error code
of an exception that has one, and further interrupts are off. -/
def enter (c : Cpu) (tss : Tss) (gate : Gate) (code : Option UInt32) : Cpu :=
  { (c.onKernelStack tss).pushes (c.trapFrame.reverse++code.toList) with
    eip := gate.offset
    cs := gate.selector
    eflags := c.eflags &&& ~~~ interruptFlag }

@[simp] theorem set_regs (c : Cpu) (r : Reg) (x : UInt32) : (c.set r x).regs = Function.update c.regs r x := rfl
@[simp] theorem set_memory (c : Cpu) (r : Reg) (x : UInt32) : (c.set r x).memory = c.memory := rfl
@[simp] theorem popad_memory (c : Cpu) : c.popad.memory = c.memory := rfl
@[simp] theorem iretd_memory (c : Cpu) : c.iretd.memory = c.memory := by
  simp only [iretd]
  split_ifs <;> rfl

theorem pushes_regs (c : Cpu) (ws : List UInt32) {r : Reg} (hr : r ≠ .esp) : (c.pushes ws).regs r = c.regs r :=
  Function.update_of_ne hr _ _

theorem pushes_push (c : Cpu) (ws : List UInt32) (x : UInt32) : (c.pushes ws).push x = c.pushes (ws++[x]) := by
  simp [push,pushes,set,stored_append]

theorem foldl_push_pushes (c : Cpu) (ws : List UInt32) {rs : List Reg} (hrs : .esp ∉ rs) :
    rs.foldl (fun c r => c.push (c.regs r)) (c.pushes ws) = c.pushes (ws++rs.map c.regs) := by
  induction rs generalizing ws with
  | nil => simp
  | cons r rs ih =>
    obtain ⟨hr,hrest⟩ := not_or.mp (mt List.mem_cons.mpr hrs)
    rw [List.foldl_cons,pushes_regs c ws (Ne.symm hr),pushes_push,ih _ hrest]
    simp

theorem foldl_push (c : Cpu) (rs : List Reg) (hrs : .esp ∉ rs) :
    rs.foldl (fun c r => c.push (c.regs r)) c = c.pushes (rs.map c.regs) := by
  have hnil : c.pushes [] = c := by simp [pushes,stored,set]
  simpa [hnil] using c.foldl_push_pushes [] hrs

/-- What is left of a stack with `n` more bytes on it: the stack pointer is that much lower, the
bytes lie right above it and nothing else is written. -/
structure Grown (c d : Cpu) (n : ℕ) (ws : List UInt32) : Prop where
  esp : (d.regs .esp).toNat+n = (c.regs .esp).toNat
  words : WordsAt d.memory (d.regs .esp) ws
  memory : AgreeOn (span (d.regs .esp) n)ᶜ c.memory d.memory
  regs : ∀ r, r ≠ .esp → d.regs r = c.regs r

theorem pushes_grown (c : Cpu) (ws held : List UInt32)
    (hheld : WordsAt c.memory (c.regs .esp) held) (hroom : 4*ws.length ≤ (c.regs .esp).toNat)
    (htop : (c.regs .esp).toNat+4*held.length < 2^32) :
    c.Grown (c.pushes ws) (4*ws.length) (ws.reverse++held) := by
  obtain ⟨hsp,hwords,hagree⟩ := stored_spec ws held hheld hroom htop
  refine ⟨?_,?_,?_,fun r hr => Function.update_of_ne hr _ _⟩ <;> simp only [pushes,set,Function.update_self]
  · omega
  · exact hwords
  · exact hagree

theorem pushad_grown (c : Cpu) {held : List UInt32} (hheld : WordsAt c.memory (c.regs .esp) held)
    (hroom : 32 ≤ (c.regs .esp).toNat) (htop : (c.regs .esp).toNat+4*held.length < 2^32) :
    c.Grown c.pushad 32 (c.pushadWords (c.regs .esp)++held) :=
  c.pushes_grown _ _ hheld hroom htop

/-- The frame of the interrupted context under the error code, at the kernel's stack pointer. -/
theorem enter_grown (c : Cpu) (tss : Tss) (gate : Gate) (code : Option UInt32)
    (hroom : 4*(c.trapFrame.length+code.toList.length) ≤ (c.kernelEsp tss).toNat) :
    (c.onKernelStack tss).Grown (c.enter tss gate code) (4*(c.trapFrame.length+code.toList.length))
      (code.toList++c.trapFrame) := by
  have hpush := (c.onKernelStack tss).pushes_grown (c.trapFrame.reverse++code.toList) [] trivial
    (by simpa [onKernelStack,set] using hroom) (by simpa using UInt32.toNat_lt _)
  have hcode : code.toList.reverse = code.toList := by cases code <;> rfl
  simp only [List.length_append,List.length_reverse,List.reverse_append,List.reverse_reverse,List.append_nil,
    hcode] at hpush
  exact ⟨hpush.esp,hpush.words,hpush.memory,hpush.regs⟩

theorem Grown.trans {c d e : Cpu} {n k : ℕ} {ws ws' : List UInt32} (h : c.Grown d n ws) (h' : d.Grown e k ws') :
    c.Grown e (n+k) ws' := by
  have hesp := h.esp
  have hesp' := h'.esp
  refine ⟨by omega,h'.words,?_,fun r hr => (h'.regs r hr).trans (h.regs r hr)⟩
  intro b hb
  have hfirst : b ∉ span (d.regs .esp) n := by
    rintro ⟨hge,hlt⟩
    exact hb ⟨by omega,by omega⟩
  have hsecond : b ∉ span (e.regs .esp) k := by
    rintro ⟨hge,hlt⟩
    exact hb ⟨hge,by omega⟩
  exact (h.memory b hfirst).trans (h'.memory b hsecond)

/-- From the words that `pushad` left for a context, `popad` takes back all but the stack pointer. -/
theorem popad_eq {c : Cpu} {x : Context} {skipped : UInt32} {ws : List UInt32}
    (h : WordsAt c.memory (c.regs .esp) (x.pushadWords skipped++ws)) :
    WordsAt c.memory (c.regs .esp+32) ws ∧
    c.popad = { c with regs := Function.update x.regs .esp (c.regs .esp+32) } := by
  obtain ⟨h0,h1,h2,-,h4,h5,h6,h7,hrest⟩ := h
  simp only [UInt32.add_assoc,UInt32.reduceAdd] at h1 h2 h4 h5 h6 h7 hrest
  refine ⟨hrest,?_⟩
  simp only [popad,pop,top,discard,set,Function.update_self,ne_eq,reduceCtorEq,not_false_eq_true,
    Function.update_of_ne,UInt32.add_assoc,UInt32.reduceAdd,h0,h1,h2,h4,h5,h6,h7]
  congr 2
  funext r
  cases r <;> simp

/-- From the frame of a context, `iretd` in the kernel goes on as the context but for the
registers that the frame does not hold. -/
theorem iretd_eq {c : Cpu} {x : Context} (hframe : WordsAt c.memory (c.regs .esp) x.trapFrame)
    (hcs : ring c.cs = 0) (hinner : ring x.cs = 0 → x.regs .esp = c.regs .esp+12 ∧ x.ss = c.ss) :
    c.iretd = { c with toContext := { x with regs := Function.update c.regs .esp (x.regs .esp) } } := by
  obtain ⟨heip,hcs',hflags,houter⟩ := hframe
  simp only [UInt32.add_assoc,UInt32.reduceAdd] at hcs' hflags houter
  simp only [iretd,top,discard,set,Function.update_self,UInt32.add_assoc,UInt32.reduceAdd,heip,hcs',hflags,hcs,
    Function.update_idem]
  split_ifs with hring
  · obtain ⟨hesp,hss⟩ := hinner hring
    rw [hesp,hss]
  · rw [if_neg hring] at houter
    obtain ⟨hesp,hss,-⟩ := houter
    simp only [UInt32.add_assoc,UInt32.reduceAdd] at hss
    rw [hesp,hss]

end Cpu

/-- A frame right below the kernel's stack pointer from which `popad` and `iretd` in the kernel
go on as the context. -/
structure Saved (m : Memory) (sp : UInt32) (tss : Tss) (x : Context) : Prop where
  place : sp.toNat+x.frameSize = (x.kernelEsp tss).toNat
  frame : ∃ skipped, WordsAt m sp (x.pushadWords skipped++x.trapFrame)
  segment : ring x.cs = 0 → x.ss = tss.ss0

namespace Saved

variable {m m' : Memory} {sp : UInt32} {tss : Tss} {x : Context}

theorem length_words (x : Context) (skipped : UInt32) :
    4*(x.pushadWords skipped++x.trapFrame).length = x.frameSize := by
  rw [List.length_append]
  rfl

theorem top_lt (h : Saved m sp tss x) : sp.toNat+x.frameSize < 2^32 := by
  rw [h.place]
  exact UInt32.toNat_lt _

theorem congr (h : Saved m sp tss x) (hagree : AgreeOn (span sp x.frameSize) m m') : Saved m' sp tss x := by
  obtain ⟨skipped,hframe⟩ := h.frame
  refine ⟨h.place,⟨skipped,hframe.congr ?_ ?_⟩,h.segment⟩
  · rw [length_words]
    exact h.top_lt
  · rwa [length_words]

theorem resumed {c : Cpu} (h : Saved c.memory (c.regs .esp) tss x) (hcs : ring c.cs = 0) (hss : c.ss = tss.ss0) :
    c.popad.iretd = { c with toContext := x } := by
  obtain ⟨skipped,hframe⟩ := h.frame
  obtain ⟨hrest,hpopad⟩ := Cpu.popad_eq hframe
  have hinner : ring x.cs = 0 → x.regs .esp = c.popad.regs .esp+12 ∧ x.ss = c.popad.ss := by
    intro hring
    have hplace := h.place
    simp only [x.frameSize_eq,Context.kernelEsp,if_pos hring] at hplace
    have hesp : c.regs .esp+44 = x.regs .esp := by
      apply UInt32.toNat_inj.mp
      rw [toNat_add] <;> simp only [UInt32.reduceToNat] <;> have := (x.regs .esp).toNat_lt <;> omega
    exact ⟨by simp [hpopad,← hesp,UInt32.add_assoc],by rw [hpopad,h.segment hring,← hss]⟩
  rw [Cpu.iretd_eq (by simpa [hpopad] using hrest) (by rw [hpopad,hcs]) hinner,hpopad]
  simp

theorem storeEax (h : Saved m sp tss x) (r : UInt32) :
    Saved (write m (sp+28) r) sp tss { x with regs := Function.update x.regs .eax r } := by
  obtain ⟨skipped,hframe⟩ := h.frame
  refine ⟨h.place,⟨skipped,?_⟩,h.segment⟩
  exact hframe.set 7 r (by simp [Context.pushadWords]) (by rw [length_words]; exact h.top_lt)

end Saved

/-- The context that `popad` and `iretd` make of a frame, in a kernel with this code segment. -/
def suspended (m : Memory) (sp cs : UInt32) (tss : Tss) : Context :=
  let c : Cpu := ⟨⟨fun _ => sp,0,0,cs,tss.ss0⟩,m,0⟩
  c.popad.iretd.toContext

theorem Saved.suspended_eq {m : Memory} {sp cs : UInt32} {tss : Tss} {x : Context} (h : Saved m sp tss x)
    (hcs : ring cs = 0) : suspended m sp cs tss = x :=
  congrArg Cpu.toContext (Saved.resumed (c := ⟨⟨fun _ => sp,0,0,cs,tss.ss0⟩,m,0⟩) h hcs rfl)

/-- What the entry into the kernel and `pushad` leave: the frame of the interrupted context and
nothing else written, on a stack that holds an error code between the two if there is one. -/
theorem Cpu.enter_pushad (c : Cpu) (tss : Tss) (gate : Gate) (code : Option UInt32)
    (hroom : c.frameSize+4*code.toList.length ≤ (c.kernelEsp tss).toNat) :
    (c.onKernelStack tss).Grown (c.enter tss gate code).pushad (c.frameSize+4*code.toList.length)
      (c.pushadWords ((c.enter tss gate code).regs .esp)++(code.toList++c.trapFrame)) := by
  have hsize : c.frameSize = 32+4*c.trapFrame.length := Nat.mul_add 4 8 _
  have henter := c.enter_grown tss gate code (by omega)
  have hesp := henter.esp
  have hbase : ((c.onKernelStack tss).regs .esp).toNat = (c.kernelEsp tss).toNat := by simp [onKernelStack,set]
  have hpushad := (c.enter tss gate code).pushad_grown henter.words (by omega) (by
    have := (c.kernelEsp tss).toNat_lt
    rw [List.length_append]
    omega)
  have hregs : (c.enter tss gate code).pushadWords ((c.enter tss gate code).regs .esp) =
      c.pushadWords ((c.enter tss gate code).regs .esp) := by
    refine Context.pushadWords_congr (fun r hr => (henter.regs r hr).trans ?_) _
    simp [onKernelStack,set,hr]
  rw [hregs] at hpushad
  have htotal : c.frameSize+4*code.toList.length = 4*(c.trapFrame.length+code.toList.length)+32 := by omega
  rw [htotal]
  exact henter.trans hpushad

theorem Cpu.Grown.saved {c d : Cpu} {tss : Tss} {skipped : UInt32} (hss : ring c.cs = 0 → c.ss = tss.ss0)
    (h : (c.onKernelStack tss).Grown d c.frameSize (c.pushadWords skipped++c.trapFrame)) :
    Saved d.memory (d.regs .esp) tss c.toContext := by
  refine ⟨?_,⟨skipped,h.words⟩,hss⟩
  have hesp := h.esp
  simpa [onKernelStack,set] using hesp

/-- Instructions of entry code; a call leads to a function of the kernel. -/
inductive Instr (γ : Type*)
  | pushad
  | popad
  | iretd
  | cli
  | push (src : Reg)
  | pushImm (x : UInt32)
  | mov (dst src : Reg)
  | movLow (dst : Reg) (x : UInt16)
  | movCr2 (dst : Reg)
  | load (dst base : Reg) (offset : UInt32)
  | store (base : Reg) (offset : UInt32) (src : Reg)
  | add (dst : Reg) (x : UInt32)
  | call (callee : γ)

section Exec

variable {γ σ : Type*}

/-- One instruction, next to the data of the kernel that only calls read and change; `add`
leaves arithmetic flags of its own. -/
def Instr.Step (calls : γ → σ × Cpu → σ × Cpu → Prop) : Instr γ → σ × Cpu → σ × Cpu → Prop
  | .pushad, s, t => t = (s.1,s.2.pushad)
  | .popad, s, t => t = (s.1,s.2.popad)
  | .iretd, s, t => t = (s.1,s.2.iretd)
  | .cli, s, t => t = (s.1,{ s.2 with eflags := s.2.eflags &&& ~~~ interruptFlag })
  | .push src, s, t => t = (s.1,s.2.push (s.2.regs src))
  | .pushImm x, s, t => t = (s.1,s.2.push x)
  | .mov dst src, s, t => t = (s.1,s.2.set dst (s.2.regs src))
  | .movLow dst x, s, t => t = (s.1,s.2.set dst (s.2.regs dst &&& 0xFFFF0000 ||| x.toUInt32))
  | .movCr2 dst, s, t => t = (s.1,s.2.set dst s.2.cr2)
  | .load dst base offset, s, t => t = (s.1,s.2.set dst (read s.2.memory (s.2.regs base+offset)))
  | .store base offset src, s, t =>
    t = (s.1,{ s.2 with memory := write s.2.memory (s.2.regs base+offset) (s.2.regs src) })
  | .add dst x, s, t => ∃ flags, flags &&& ~~~ arithmeticFlags = s.2.eflags &&& ~~~ arithmeticFlags ∧
    t = (s.1,{ s.2.set dst (s.2.regs dst+x) with eflags := flags })
  | .call callee, s, t => calls callee s t

def Exec (calls : γ → σ × Cpu → σ × Cpu → Prop) : List (Instr γ) → σ × Cpu → σ × Cpu → Prop
  | [], s, t => t = s
  | i::is, s, t => ∃ u, i.Step calls s u ∧ Exec calls is u t

theorem exec_push {calls : γ → σ × Cpu → σ × Cpu → Prop} (rs : List Reg) (hrs : .esp ∉ rs) {is : List (Instr γ)} {k : σ}
    {c : Cpu} {t : σ × Cpu} :
    Exec calls (rs.map .push++is) (k,c) t ↔ Exec calls is (k,c.pushes (rs.map c.regs)) t := by
  rw [← c.foldl_push rs hrs]
  induction rs generalizing c with
  | nil => rfl
  | cons r rs ih =>
    have hstep : Exec calls ((r::rs).map .push++is) (k,c) t ↔
        Exec calls (rs.map .push++is) (k,c.push (c.regs r)) t := by
      simp [Exec,Instr.Step]
    rw [hstep,ih (fun h => hrs (List.mem_cons_of_mem r h)),List.foldl_cons]

/-- What the C calling convention keeps for the caller, with the memory that the callee must
leave alone. -/
structure Returns (kept : Set UInt32) (c d : Cpu) : Prop where
  regs : ∀ r, r ≠ .eax → r ≠ .ecx → r ≠ .edx → d.regs r = c.regs r
  cs : d.cs = c.cs
  ss : d.ss = c.ss
  memory : AgreeOn kept c.memory d.memory

end Exec

end Ia32
end EnosKernel
