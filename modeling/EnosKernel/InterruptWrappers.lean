import EnosKernel.Ia32

/-! The assembly of `interrupts.rs` and `switch_to_user_mode` of `main.rs`, instruction by
instruction, and what each wrapper does around the call it makes. -/
namespace EnosKernel
namespace Interrupts

open ByteMemory Ia32

/-- The functions that the assembly calls; the body of the keyboard handler is compiled with
the `x86-interrupt` convention. -/
inductive Callee
  | schedulerTick
  | pageFaultDispatcher
  | syscallDispatcher
  | keyboardInterrupt
  deriving DecidableEq, Repr

def timerInterruptWrapper : List (Instr Callee) :=
  [.pushad,
   .push .esp,
   .call .schedulerTick,
   .add .esp 4,
   .mov .esp .eax,
   .popad,
   .iretd]

def pageFaultWrapper : List (Instr Callee) :=
  [.pushad,
   .mov .ebx .esp,
   .movCr2 .eax,
   .load .ecx .ebx 32,
   .push .ecx,
   .push .eax,
   .push .ebx,
   .call .pageFaultDispatcher,
   .add .esp 12,
   .mov .esp .eax,
   .popad,
   .iretd]

def syscallWrapper : List (Instr Callee) :=
  [.pushad,
   .mov .ebp .esp,
   .push .ebp,
   .push .edi,
   .push .esi,
   .push .edx,
   .push .ecx,
   .push .ebx,
   .push .eax,
   .call .syscallDispatcher,
   .add .esp 28,
   .store .esp 28 .eax,
   .popad,
   .iretd]

def keyboardInterruptHandler : List (Instr Callee) := [.call .keyboardInterrupt,.iretd]

/-- The loads of the data segment registers, which no context holds, are left out. -/
def switchToUserMode : List (Instr Callee) :=
  [.cli,
   .load .edx .esp 4,
   .load .ecx .esp 8,
   .movLow .eax 0x23,
   .pushImm 0x23,
   .push .ecx,
   .pushImm 0x202,
   .pushImm 0x1B,
   .push .edx,
   .iretd]

def arg (c : Cpu) (i : ℕ) : UInt32 := read c.memory (c.regs .esp+UInt32.ofNat (4*i))

section

variable {σ : Type*} {calls : Callee → σ × Cpu → σ × Cpu → Prop} {k k' : σ} {c d : Cpu}

/-- The end of the wrappers that go on with the stack whose pointer the call has returned. -/
theorem exec_resume {f : Callee} {n : UInt32} {e : Cpu} :
    Exec calls [.call f,.add .esp n,.mov .esp .eax,.popad,.iretd] (k,e) (k',d) ↔
    ∃ r flags, flags &&& ~~~ arithmeticFlags = r.eflags &&& ~~~ arithmeticFlags ∧ calls f (k,e) (k',r) ∧
      d = ({ r with eflags := flags }.set .esp (r.regs .eax)).popad.iretd := by
  constructor
  · rintro ⟨⟨k₁,r⟩,hcall,_,⟨flags,hflags,rfl⟩,_,rfl,_,rfl,_,rfl,heq⟩
    obtain ⟨rfl,rfl⟩ := Prod.mk.inj heq
    exact ⟨r,flags,hflags,hcall,by simp [Cpu.set]⟩
  · rintro ⟨r,flags,hflags,hcall,rfl⟩
    exact ⟨_,hcall,_,⟨flags,hflags,rfl⟩,_,rfl,_,rfl,_,rfl,by simp [Cpu.set,Exec]⟩

theorem timerInterruptWrapper_exec : Exec calls timerInterruptWrapper (k,c) (k',d) ↔
    ∃ r flags, flags &&& ~~~ arithmeticFlags = r.eflags &&& ~~~ arithmeticFlags ∧
      calls .schedulerTick (k,c.pushad.pushes [c.pushad.regs .esp]) (k',r) ∧
      d = ({ r with eflags := flags }.set .esp (r.regs .eax)).popad.iretd := by
  rw [← exec_resume (n := 4)]
  constructor
  · rintro ⟨_,rfl,_,rfl,h⟩
    exact h
  · exact fun h => ⟨_,rfl,_,rfl,h⟩

/-- The registers from which the page-fault dispatcher gets its arguments. -/
def faultArguments (p : Cpu) : Cpu :=
  ((p.set .ebx (p.regs .esp)).set .eax p.cr2).set .ecx (read p.memory (p.regs .esp+32))

theorem exec_faultArguments {is : List (Instr Callee)} {t : σ × Cpu} :
    Exec calls (.pushad::.mov .ebx .esp::.movCr2 .eax::.load .ecx .ebx 32::is) (k,c) t ↔
      Exec calls is (k,faultArguments c.pushad) t := by
  simp only [Exec,Instr.Step,exists_eq_left]
  generalize c.pushad = p
  simp [faultArguments,Cpu.set]

theorem pageFaultWrapper_exec : Exec calls pageFaultWrapper (k,c) (k',d) ↔
    ∃ r flags, flags &&& ~~~ arithmeticFlags = r.eflags &&& ~~~ arithmeticFlags ∧
      calls .pageFaultDispatcher (k,(faultArguments c.pushad).pushes
        [read c.pushad.memory (c.pushad.regs .esp+32),c.pushad.cr2,c.pushad.regs .esp]) (k',r) ∧
      d = ({ r with eflags := flags }.set .esp (r.regs .eax)).popad.iretd := by
  rw [pageFaultWrapper,exec_faultArguments,← exec_resume (n := 12)]
  generalize c.pushad = p
  have hargs : [.ecx,.eax,.ebx].map (faultArguments p).regs = [read p.memory (p.regs .esp+32),p.cr2,p.regs .esp] := by
    simp [faultArguments]
  rw [← hargs]
  exact exec_push [.ecx,.eax,.ebx] (by decide)

theorem syscallWrapper_exec : Exec calls syscallWrapper (k,c) (k',d) ↔
    ∃ r flags, flags &&& ~~~ arithmeticFlags = r.eflags &&& ~~~ arithmeticFlags ∧
      calls .syscallDispatcher (k,(c.pushad.set .ebp (c.pushad.regs .esp)).pushes
        ([.esp,.edi,.esi,.edx,.ecx,.ebx,.eax].map c.pushad.regs)) (k',r) ∧
      d = ({ r with eflags := flags, memory := write r.memory (r.regs .esp+28+28) (r.regs .eax) }.set .esp
        (r.regs .esp+28)).popad.iretd := by
  have hrow : Exec calls syscallWrapper (k,c) (k',d) ↔ Exec calls ([.ebp,.edi,.esi,.edx,.ecx,.ebx,.eax].map .push++
      [.call .syscallDispatcher,.add .esp 28,.store .esp 28 .eax,.popad,.iretd])
      (k,c.pushad.set .ebp (c.pushad.regs .esp)) (k',d) := by
    constructor
    · rintro ⟨_,rfl,_,rfl,h⟩
      exact h
    · exact fun h => ⟨_,rfl,_,rfl,h⟩
  rw [hrow,exec_push _ (by decide)]
  generalize c.pushad = p
  have hargs : [.ebp,.edi,.esi,.edx,.ecx,.ebx,.eax].map (p.set .ebp (p.regs .esp)).regs =
      [.esp,.edi,.esi,.edx,.ecx,.ebx,.eax].map p.regs := by simp
  rw [hargs]
  constructor
  · rintro ⟨⟨k₁,r⟩,hcall,_,⟨flags,hflags,rfl⟩,_,rfl,_,rfl,_,rfl,heq⟩
    obtain ⟨rfl,rfl⟩ := Prod.mk.inj heq
    exact ⟨r,flags,hflags,hcall,by simp [Cpu.set]⟩
  · rintro ⟨r,flags,hflags,hcall,rfl⟩
    exact ⟨_,hcall,_,⟨flags,hflags,rfl⟩,_,rfl,_,rfl,_,rfl,by simp [Cpu.set,Exec]⟩

/-- The context that `switch_to_user_mode(user_entry, user_stack_top)` jumps to. -/
def userContext (c : Cpu) : Context :=
  let userEntry := read c.memory (c.regs .esp+4)
  let userStackTop := read c.memory (c.regs .esp+8)
  { regs := Function.update (Function.update (Function.update (Function.update c.regs .edx userEntry) .ecx userStackTop)
      .eax (c.regs .eax &&& 0xFFFF0000 ||| 0x23)) .esp userStackTop
    eip := userEntry
    eflags := 0x202
    cs := 0x1B
    ss := 0x23 }

theorem switchToUserMode_exec (h : Exec calls switchToUserMode (k,c) (k',d)) (hcs : ring c.cs = 0)
    (hroom : 20 ≤ (c.regs .esp).toNat) :
    k' = k ∧ d.toContext = userContext c ∧ AgreeOn (span (c.regs .esp-20) 20)ᶜ c.memory d.memory := by
  simp only [switchToUserMode,Exec,Instr.Step] at h
  obtain ⟨_,rfl,_,rfl,_,rfl,u,hloaded,h⟩ := h
  have hregs : u = (k,{ c with
      regs := Function.update (Function.update (Function.update c.regs .edx (read c.memory (c.regs .esp+4))) .ecx
        (read c.memory (c.regs .esp+8))) .eax (c.regs .eax &&& 0xFFFF0000 ||| 0x23)
      eflags := c.eflags &&& ~~~ interruptFlag }) := by
    rw [hloaded]
    simp [Cpu.set]
  generalize hbase : ({ c with
      regs := Function.update (Function.update (Function.update c.regs .edx (read c.memory (c.regs .esp+4))) .ecx
        (read c.memory (c.regs .esp+8))) .eax (c.regs .eax &&& 0xFFFF0000 ||| 0x23)
      eflags := c.eflags &&& ~~~ interruptFlag } : Cpu) = e at hregs
  subst hregs
  obtain ⟨_,rfl,_,rfl,_,rfl,_,rfl,_,rfl,_,rfl,heq⟩ := h
  obtain ⟨rfl,rfl⟩ := Prod.mk.inj heq
  have hone : e.push 0x23 = e.pushes [0x23] := rfl
  simp only [hone,Cpu.pushes_push,Cpu.pushes_regs e _ (show Reg.ecx ≠ .esp by decide),
    Cpu.pushes_regs e _ (show Reg.edx ≠ .esp by decide),List.cons_append,List.nil_append]
  have hesp : e.regs .esp = c.regs .esp := by simp [← hbase]
  have hmemory : e.memory = c.memory := by rw [← hbase]
  have hgrown := e.pushes_grown [0x23,e.regs .ecx,0x202,0x1B,e.regs .edx] [] trivial
    (by rw [hesp]; exact hroom) (by simpa using UInt32.toNat_lt _)
  have hplace := hgrown.esp
  rw [hesp] at hplace
  have hcode : ring (e.pushes [0x23,e.regs .ecx,0x202,0x1B,e.regs .edx]).cs = 0 := by
    rw [← hcs,← hbase]
    rfl
  generalize e.pushes [0x23,e.regs .ecx,0x202,0x1B,e.regs .edx] = p at hgrown hplace hcode ⊢
  have hring : ring (userContext c).cs ≠ 0 := by
    change ring 0x1B ≠ 0
    decide
  have hframe : (userContext c).trapFrame = [e.regs .edx,0x1B,0x202,e.regs .ecx,0x23] := by
    simp [Context.trapFrame,hring,← hbase]
    simp [userContext]
  have hresumed := Cpu.iretd_eq (x := userContext c) (by rw [hframe]; exact hgrown.words) hcode fun h => absurd h hring
  rw [hresumed]
  refine ⟨trivial,Context.ext ?_ rfl rfl rfl rfl,?_⟩
  · funext r
    by_cases hr : r = .esp
    · simp [hr,userContext]
    · simp [hr,hgrown.regs r hr,userContext,← hbase]
  · have hlow : p.regs .esp = c.regs .esp-20 := by
      apply UInt32.toNat_inj.mp
      rw [toNat_sub (by simpa using hroom)]
      simp only [List.length_cons,List.length_nil,UInt32.reduceToNat] at hplace ⊢
      omega
    rw [← hlow,← hmemory]
    exact hgrown.memory

end

end Interrupts
end EnosKernel
