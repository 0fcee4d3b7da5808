import EnosKernel.Runs

/-! Spin locks on one processor.  Threads run straight-line sections of lock and
interrupt-flag instructions; an interrupt is accepted while the flag is set and its
handler runs with the flag clear, on top of the interrupted thread, to completion.
A handler that spins on a lock of a thread never gets past it. -/
namespace EnosKernel
namespace LockMachine

variable {Lock Thread Event : Type}

/-- `mask` saves the interrupt flag and clears it; `unmask` sets it again if the saved one was set. -/
inductive Instr (Lock : Type)
  | acquire (l : Lock)
  | release (l : Lock)
  | mask
  | unmask
  deriving DecidableEq, Repr

abbrev Code (Lock : Type) := List (Instr Lock)

structure Context (Lock : Type) where
  code : Code Lock
  flag : Bool
  saved : List Bool

inductive Holder (Thread : Type)
  | thread (t : Thread)
  | handler
  deriving DecidableEq, Repr

structure State (Lock Thread Event : Type) where
  threads : Thread → Context Lock
  current : Thread
  handler : Option (Event × Context Lock)
  owner : Lock → Option (Holder Thread)

/-- What the threads may run, what each event runs, and who may be interrupted by it. -/
structure System (Lock Thread Event : Type) where
  program : Thread → Code Lock → Prop
  handler : Event → Code Lock
  source : Event → Thread → Prop
  switches : Event → Prop

inductive Action (Lock Thread Event : Type)
  | fetch (code : Code Lock)
  | exec
  | enter (e : Event)
  | handle
  | leave (t : Thread)

def flags : Instr Lock → Bool → List Bool → Bool × List Bool
  | .mask, flag, saved => (false,flag::saved)
  | .unmask, flag, saved => (flag || saved.headD false,saved.tail)
  | _, flag, saved => (flag,saved)

def Context.next (c : Context Lock) (i : Instr Lock) (rest : Code Lock) : Context Lock :=
  ⟨rest,(flags i c.flag c.saved).1,(flags i c.flag c.saved).2⟩

theorem flags_masked (i : Instr Lock) {saved : List Bool} (h : ∀ b ∈ saved, b = false) :
    (flags i false saved).1 = false ∧ ∀ b ∈ (flags i false saved).2, b = false := by
  cases i with
  | acquire l => exact ⟨rfl,h⟩
  | release l => exact ⟨rfl,h⟩
  | mask => exact ⟨rfl,by simpa [flags] using h⟩
  | unmask =>
    cases saved with
    | nil => simp [flags]
    | cons b saved => simpa [flags] using h

section
variable [DecidableEq Lock]

/-- Acquiring spins while the lock is owned; releasing stores `false` whoever holds it. -/
def runInstr (who : Holder Thread) (owner : Lock → Option (Holder Thread)) :
    Instr Lock → Option (Lock → Option (Holder Thread))
  | .acquire l => if owner l = none then some (Function.update owner l (some who)) else none
  | .release l => some (Function.update owner l none)
  | _ => some owner

inductive Step [DecidableEq Thread] (sys : System Lock Thread Event) :
    State Lock Thread Event → Action Lock Thread Event → State Lock Thread Event → Prop
  | fetch {s : State Lock Thread Event} {code : Code Lock} (hh : s.handler = none)
      (hidle : (s.threads s.current).code = []) (hp : sys.program s.current code) :
      Step sys s (.fetch code) { s with
        threads := Function.update s.threads s.current { s.threads s.current with code := code } }
  | exec {s : State Lock Thread Event} {i : Instr Lock} {rest : Code Lock}
      {owner : Lock → Option (Holder Thread)} (hh : s.handler = none)
      (hcode : (s.threads s.current).code = i::rest)
      (hrun : runInstr (.thread s.current) s.owner i = some owner) :
      Step sys s .exec { s with
        threads := Function.update s.threads s.current ((s.threads s.current).next i rest)
        owner := owner }
  | enter {s : State Lock Thread Event} {e : Event} (hh : s.handler = none)
      (hflag : (s.threads s.current).flag = true) (hsource : sys.source e s.current) :
      Step sys s (.enter e) { s with handler := some (e,⟨sys.handler e,false,[]⟩) }
  | handle {s : State Lock Thread Event} {e : Event} {c : Context Lock} {i : Instr Lock}
      {rest : Code Lock} {owner : Lock → Option (Holder Thread)} (hh : s.handler = some (e,c))
      (hcode : c.code = i::rest) (hrun : runInstr .handler s.owner i = some owner) :
      Step sys s .handle { s with handler := some (e,c.next i rest), owner := owner }
  | leave {s : State Lock Thread Event} {e : Event} {c : Context Lock} {t : Thread}
      (hh : s.handler = some (e,c)) (hdone : c.code = []) (ht : t = s.current ∨ sys.switches e) :
      Step sys s (.leave t) { s with handler := none, current := t }

/-- The handler is about to acquire a lock that a thread holds. -/
def Blocked (s : State Lock Thread Event) (l : Lock) : Prop :=
  ∃ e c rest t, s.handler = some (e,c) ∧ c.code = .acquire l::rest ∧ s.owner l = some (.thread t)

/-- A blocked handler spins forever: no step leaves the state. -/
theorem Blocked.stuck [DecidableEq Thread] {sys : System Lock Thread Event} {s s' : State Lock Thread Event} {l : Lock}
    {a : Action Lock Thread Event} (h : Blocked s l) : ¬ Step sys s a s' := by
  obtain ⟨e,c,rest,t,hh,hcode,howner⟩ := h
  intro hstep
  cases hstep with
  | fetch hh' => simp [hh] at hh'
  | exec hh' => simp [hh] at hh'
  | enter hh' => simp [hh] at hh'
  | handle hh' hcode' hrun =>
    simp only [hh,Option.some.injEq,Prod.mk.injEq] at hh'
    obtain ⟨-,rfl⟩ := hh'
    simp only [hcode,List.cons.injEq] at hcode'
    obtain ⟨rfl,-⟩ := hcode'
    simp [runInstr,howner] at hrun
  | leave hh' hdone =>
    simp only [hh,Option.some.injEq,Prod.mk.injEq] at hh'
    obtain ⟨-,rfl⟩ := hh'
    simp [hcode] at hdone

/-- The code ahead still has to drop a guard of `l` taken before. -/
def inside (l : Lock) : Code Lock → Bool
  | [] => false
  | .acquire l'::code => if l' = l then false else inside l code
  | .release l'::code => if l' = l then true else inside l code
  | _::code => inside l code

/-- Every acquisition is followed by its release, and no lock is taken twice. -/
def Alternating : Code Lock → Prop
  | [] => True
  | .acquire l::code => inside l code = true ∧ Alternating code
  | .release l::code => inside l code = false ∧ Alternating code
  | _::code => Alternating code

/-- Wherever a guarded lock is held the flag is clear, and the flag is set again at the end. -/
def Disciplined (guarded : Lock → Prop) : Bool → List Bool → Code Lock → Prop
  | flag, saved, [] => flag = true ∧ saved = []
  | flag, saved, i::code => (∀ l, guarded l → inside l (i::code) = true → flag = false) ∧
      Disciplined guarded (flags i flag saved).1 (flags i flag saved).2 code

/-- A section that starts and ends with every lock released and the flag set. -/
structure Section (guarded : Lock → Prop) (code : Code Lock) : Prop where
  outside : ∀ l, inside l code = false
  alternating : Alternating code
  disciplined : Disciplined guarded true [] code

structure System.WellFormed (sys : System Lock Thread Event) (guarded : Thread → Lock → Prop) : Prop where
  program : ∀ t code, sys.program t code → Section (guarded t) code
  handlerOutside : ∀ e l, inside l (sys.handler e) = false
  handlerAlternating : ∀ e, Alternating (sys.handler e)

theorem inside_append {l : Lock} (a : Code Lock) {b : Code Lock} (hb : inside l b = false) :
    inside l (a++b) = inside l a := by
  induction a with
  | nil => exact hb
  | cons i a ih => cases i <;> simp [inside,ih]

theorem Alternating.append {a b : Code Lock} (ha : Alternating a) (hb : Alternating b)
    (hout : ∀ l, inside l b = false) : Alternating (a++b) := by
  induction a with
  | nil => exact hb
  | cons i a ih =>
    cases i with
    | acquire l => exact ⟨(inside_append a (hout l)).trans ha.1,ih ha.2⟩
    | release l => exact ⟨(inside_append a (hout l)).trans ha.1,ih ha.2⟩
    | mask => exact ih ha
    | unmask => exact ih ha

theorem Disciplined.append {guarded : Lock → Prop} {flag : Bool} {saved : List Bool}
    {a b : Code Lock} (ha : Disciplined guarded flag saved a) (hb : Disciplined guarded true [] b)
    (hout : ∀ l, inside l b = false) : Disciplined guarded flag saved (a++b) := by
  induction a generalizing flag saved with
  | nil =>
    obtain ⟨rfl,rfl⟩ := ha
    exact hb
  | cons i a ih =>
    refine ⟨?_,ih ha.2⟩
    intro l hl hin
    have hsplit : inside l (i::a++b) = inside l (i::a) := inside_append (i::a) (hout l)
    exact ha.1 l hl (hsplit ▸ hin)

theorem inside_closing {l l' : Lock} (hl : l' ≠ l) (code : Code Lock) :
    inside l' (code++[.release l]) = inside l' code :=
  inside_append code (by simp [inside,Ne.symm hl])

theorem inside_closing_self {l : Lock} {body : Code Lock}
    (hfree : ∀ i ∈ body, i ≠ .acquire l ∧ i ≠ .release l) : inside l (body++[.release l]) = true := by
  induction body with
  | nil => simp [inside]
  | cons i body ih =>
    have hi := hfree i (by simp)
    have hrest := ih fun j hj => hfree j (by simp [hj])
    cases i <;> simp_all [inside]

theorem Alternating.closing {l : Lock} {body : Code Lock} (h : Alternating body)
    (hfree : ∀ i ∈ body, i ≠ .acquire l ∧ i ≠ .release l) : Alternating (body++[.release l]) := by
  induction body with
  | nil => exact ⟨rfl,trivial⟩
  | cons i body ih =>
    have hi := hfree i (by simp)
    have hrest := fun h => ih h fun j hj => hfree j (by simp [hj])
    cases i with
    | acquire l' => exact ⟨(inside_closing (by simpa using hi.1) body).trans h.1,hrest h.2⟩
    | release l' => exact ⟨(inside_closing (by simpa using hi.2) body).trans h.1,hrest h.2⟩
    | mask => exact hrest h
    | unmask => exact hrest h

theorem Disciplined.closing {guarded : Lock → Prop} {l : Lock} (hl : ¬ guarded l) {flag : Bool}
    {saved : List Bool} {body : Code Lock} (h : Disciplined guarded flag saved body) :
    Disciplined guarded flag saved (body++[.release l]) := by
  have hne : ∀ l', guarded l' → l' ≠ l := fun l' hl' heq => hl (heq ▸ hl')
  induction body generalizing flag saved with
  | nil =>
    refine ⟨?_,h⟩
    intro l' hl' hin
    simp [inside,Ne.symm (hne l' hl')] at hin
  | cons i body ih =>
    refine ⟨?_,ih h.2⟩
    intro l' hl' hin
    exact h.1 l' hl' ((inside_closing (hne l' hl') (i::body)).symm.trans hin)

namespace Section

variable {guarded : Lock → Prop}

theorem nil : Section guarded ([] : Code Lock) := ⟨fun _ => rfl,trivial,rfl,rfl⟩

theorem append {a b : Code Lock} (ha : Section guarded a) (hb : Section guarded b) :
    Section guarded (a++b) where
  outside := fun l => by rw [inside_append a (hb.outside l)]; exact ha.outside l
  alternating := ha.alternating.append hb.alternating hb.outside
  disciplined := ha.disciplined.append hb.disciplined hb.outside

theorem flatten {codes : List (Code Lock)} (h : ∀ code ∈ codes, Section guarded code) :
    Section guarded codes.flatten := by
  induction codes with
  | nil => exact nil
  | cons code codes ih =>
    exact (h code (by simp)).append (ih fun c hc => h c (by simp [hc]))

theorem masked (l : Lock) : Section guarded [.mask,.acquire l,.release l,.unmask] where
  outside := by intro l'; by_cases h : l = l' <;> simp [inside,h]
  alternating := by simp [Alternating,inside]
  disciplined := by simp [Disciplined,flags,inside]

theorem around {l : Lock} (hl : ¬ guarded l) {body : Code Lock} (hbody : Section guarded body)
    (hfree : ∀ i ∈ body, i ≠ .acquire l ∧ i ≠ .release l) :
    Section guarded (.acquire l::(body++[.release l])) where
  outside := by
    intro l'
    by_cases h : l = l'
    · simp [inside,h]
    · simp [inside,h,inside_closing (Ne.symm h),hbody.outside l']
  alternating := ⟨inside_closing_self hfree,hbody.alternating.closing hfree⟩
  disciplined := by
    refine ⟨?_,hbody.disciplined.closing hl⟩
    intro l' hl' hin
    have hne : l ≠ l' := fun h => hl (h ▸ hl')
    simp [inside,hne,inside_closing (Ne.symm hne),hbody.outside l'] at hin

theorem plain {l : Lock} (hl : ¬ guarded l) : Section guarded [.acquire l,.release l] :=
  around hl nil (by simp)

end Section

def State.start (current : Thread) : State Lock Thread Event :=
  ⟨fun _ => ⟨[],true,[]⟩,current,none,fun _ => none⟩

/-- Who holds a lock is who stands between its acquisition and its release; and a thread that
does not run was interrupted with the flag set. -/
structure Invariant (guarded : Thread → Lock → Prop) (s : State Lock Thread Event) : Prop where
  threadOwner : ∀ l t, s.owner l = some (.thread t) ↔ inside l (s.threads t).code = true
  handlerOwner : ∀ l, s.owner l = some .handler ↔ ∃ p, s.handler = some p ∧ inside l p.2.code = true
  threadCode : ∀ t, Alternating (s.threads t).code
  handlerCode : ∀ p, s.handler = some p → Alternating p.2.code
  handlerFlag : ∀ p, s.handler = some p → p.2.flag = false ∧ ∀ b ∈ p.2.saved, b = false
  disciplined : ∀ t, Disciplined (guarded t) (s.threads t).flag (s.threads t).saved (s.threads t).code
  enabled : ∀ t, t ≠ s.current ∨ s.handler.isSome → (s.threads t).flag = true

theorem Alternating.tail {i : Instr Lock} {rest : Code Lock} (h : Alternating (i::rest)) :
    Alternating rest := by
  cases i with
  | acquire l => exact h.2
  | release l => exact h.2
  | mask => exact h
  | unmask => exact h

theorem runInstr_owner {who : Holder Thread} {owner owner' : Lock → Option (Holder Thread)}
    {i : Instr Lock} {rest : Code Lock} (hown : ∀ l, owner l = some who ↔ inside l (i::rest) = true)
    (halt : Alternating (i::rest)) (hrun : runInstr who owner i = some owner') :
    (∀ l, owner' l = some who ↔ inside l rest = true) ∧
    ∀ other, other ≠ who → ∀ l, owner' l = some other ↔ owner l = some other := by
  cases i with
  | acquire l₀ =>
    simp only [runInstr,Option.ite_none_right_eq_some,Option.some.injEq] at hrun
    obtain ⟨hfree,rfl⟩ := hrun
    constructor
    · intro l
      by_cases hl : l = l₀
      · subst hl
        simp [halt.1]
      · have := hown l
        simp only [inside,Ne.symm hl,if_false] at this
        simpa [hl] using this
    · intro other hother l
      by_cases hl : l = l₀
      · subst hl
        simp [hfree,Ne.symm hother]
      · simp [hl]
  | release l₀ =>
    simp only [runInstr,Option.some.injEq] at hrun
    subst hrun
    have hheld : owner l₀ = some who := (hown l₀).mpr (by simp [inside])
    constructor
    · intro l
      by_cases hl : l = l₀
      · subst hl
        simp [halt.1]
      · have := hown l
        simp only [inside,Ne.symm hl,if_false] at this
        simpa [hl] using this
    · intro other hother l
      by_cases hl : l = l₀
      · subst hl
        simp [hheld,Ne.symm hother]
      · simp [hl]
  | mask =>
    cases hrun
    exact ⟨hown,fun _ _ _ => Iff.rfl⟩
  | unmask =>
    cases hrun
    exact ⟨hown,fun _ _ _ => Iff.rfl⟩

variable {sys : System Lock Thread Event} {guarded : Thread → Lock → Prop}
  {s s' : State Lock Thread Event} {a : Action Lock Thread Event}

theorem start_invariant (current : Thread) :
    Invariant guarded (State.start current : State Lock Thread Event) where
  threadOwner := by simp [State.start,inside]
  handlerOwner := by simp [State.start]
  threadCode := fun _ => trivial
  handlerCode := by simp [State.start]
  handlerFlag := by simp [State.start]
  disciplined := fun _ => ⟨rfl,rfl⟩
  enabled := fun _ _ => rfl

theorem Invariant.handle (h : Invariant guarded s) {e : Event} {c : Context Lock} {i : Instr Lock}
    {rest : Code Lock} {owner : Lock → Option (Holder Thread)} (hh : s.handler = some (e,c))
    (hcode : c.code = i::rest) (hrun : runInstr .handler s.owner i = some owner) :
    Invariant guarded { s with handler := some (e,c.next i rest), owner := owner } := by
  have halt := h.handlerCode _ hh
  simp only [hcode] at halt
  have hown : ∀ l, s.owner l = some .handler ↔ inside l (i::rest) = true := by
    intro l
    simpa [hh,hcode] using h.handlerOwner l
  obtain ⟨hmine,hothers⟩ := runInstr_owner hown halt hrun
  refine ⟨?_,?_,h.threadCode,?_,?_,h.disciplined,?_⟩
  · intro l t
    simpa [hothers (.thread t) (by simp) l] using h.threadOwner l t
  · intro l
    simpa [Context.next] using hmine l
  · rintro p ⟨⟩
    exact halt.tail
  · rintro p ⟨⟩
    obtain ⟨hflag,hsaved⟩ := h.handlerFlag _ hh
    simp only at hflag hsaved
    simp only [Context.next,hflag]
    exact flags_masked i hsaved
  · intro t _
    exact h.enabled t (Or.inr (by simp [hh]))

theorem Invariant.leave (h : Invariant guarded s) {e : Event} {c : Context Lock} (t : Thread)
    (hh : s.handler = some (e,c)) (hdone : c.code = []) :
    Invariant guarded ({ s with handler := none, current := t } : State Lock Thread Event) where
  threadOwner := h.threadOwner
  handlerOwner := by
    intro l
    simpa [hh,hdone,inside] using h.handlerOwner l
  threadCode := h.threadCode
  handlerCode := by simp
  handlerFlag := by simp
  disciplined := h.disciplined
  enabled := fun t _ => h.enabled t (Or.inr (by simp [hh]))

/-- What a clear entry leaves true while the handler runs. -/
def Unobstructed (L : Lock → Prop) (s : State Lock Thread Event) : Prop :=
  ∀ p, s.handler = some p → ∀ l, L l → .acquire l ∈ p.2.code → ∀ t, inside l (s.threads t).code = false

theorem unobstructed_idle {L : Lock → Prop} (hh : s.handler = none) : Unobstructed L s := by
  intro p hp
  simp [hh] at hp

theorem Unobstructed.not_blocked {L : Lock → Prop} (h : Unobstructed L s) (hs : Invariant guarded s)
    {l : Lock} (hl : L l) : ¬ Blocked s l := by
  rintro ⟨e,c,rest,t,hh,hcode,howner⟩
  have hin := (hs.threadOwner l t).mp howner
  have hout := h _ hh l hl (by simp [hcode]) t
  simp [hin] at hout

variable [DecidableEq Thread]

theorem Invariant.all_enabled (h : Invariant guarded s) (hflag : (s.threads s.current).flag = true)
    (t : Thread) : (s.threads t).flag = true := by
  by_cases ht : t = s.current
  · rw [ht]
    exact hflag
  · exact h.enabled t (Or.inl ht)

theorem Invariant.fetch (h : Invariant guarded s) {code : Code Lock}
    (hidle : (s.threads s.current).code = []) (hcode : Section (guarded s.current) code) :
    Invariant guarded { s with
      threads := Function.update s.threads s.current { s.threads s.current with code := code } } where
  threadOwner := by
    intro l t
    have hold := h.threadOwner l t
    by_cases ht : t = s.current
    · subst ht
      simpa [hidle,inside,hcode.outside l] using hold
    · simpa [ht] using hold
  handlerOwner := h.handlerOwner
  threadCode := by
    intro t
    by_cases ht : t = s.current
    · subst ht
      simpa using hcode.alternating
    · simpa [ht] using h.threadCode t
  handlerCode := h.handlerCode
  handlerFlag := h.handlerFlag
  disciplined := by
    intro t
    by_cases ht : t = s.current
    · subst ht
      have hidleFlags := h.disciplined s.current
      rw [hidle] at hidleFlags
      obtain ⟨hflag,hsaved⟩ := hidleFlags
      simpa [hflag,hsaved] using hcode.disciplined
    · simpa [ht] using h.disciplined t
  enabled := by
    intro t ht
    have hold := h.enabled t ht
    by_cases htc : t = s.current
    · subst htc
      simpa using hold
    · simpa [htc] using hold

theorem Invariant.exec (h : Invariant guarded s) {i : Instr Lock} {rest : Code Lock}
    {owner : Lock → Option (Holder Thread)} (hh : s.handler = none)
    (hcode : (s.threads s.current).code = i::rest)
    (hrun : runInstr (.thread s.current) s.owner i = some owner) :
    Invariant guarded { s with
      threads := Function.update s.threads s.current ((s.threads s.current).next i rest)
      owner := owner } := by
  have halt := h.threadCode s.current
  rw [hcode] at halt
  have hown := fun l => hcode ▸ h.threadOwner l s.current
  obtain ⟨hmine,hothers⟩ := runInstr_owner hown halt hrun
  refine ⟨?_,?_,?_,h.handlerCode,h.handlerFlag,?_,?_⟩
  · intro l t
    by_cases ht : t = s.current
    · subst ht
      simpa [Context.next] using hmine l
    · have hne : Holder.thread t ≠ Holder.thread s.current := by simpa using ht
      simpa [ht,hothers _ hne l] using h.threadOwner l t
  · intro l
    simpa [hothers .handler (by simp) l] using h.handlerOwner l
  · intro t
    by_cases ht : t = s.current
    · subst ht
      simpa [Context.next] using halt.tail
    · simpa [ht] using h.threadCode t
  · intro t
    by_cases ht : t = s.current
    · subst ht
      have hnow := h.disciplined s.current
      rw [hcode] at hnow
      simpa [Context.next] using hnow.2
    · simpa [ht] using h.disciplined t
  · intro t ht
    have htc : t ≠ s.current := by simpa [hh] using ht
    simpa [htc] using h.enabled t (Or.inl htc)

theorem Invariant.enter (h : Invariant guarded s) (hsys : sys.WellFormed guarded) {e : Event}
    (hh : s.handler = none) (hflag : (s.threads s.current).flag = true) :
    Invariant guarded { s with handler := some (e,⟨sys.handler e,false,[]⟩) } where
  threadOwner := h.threadOwner
  handlerOwner := by
    intro l
    have hold := h.handlerOwner l
    simpa [hh,hsys.handlerOutside e l] using hold
  threadCode := h.threadCode
  handlerCode := by
    rintro p ⟨⟩
    exact hsys.handlerAlternating e
  handlerFlag := by
    rintro p ⟨⟩
    simp
  disciplined := h.disciplined
  enabled := fun t _ => h.all_enabled hflag t

theorem Invariant.step (hsys : sys.WellFormed guarded) (h : Invariant guarded s)
    (hstep : Step sys s a s') : Invariant guarded s' := by
  cases hstep with
  | fetch _ hidle hp => exact h.fetch hidle (hsys.program _ _ hp)
  | exec hh hcode hrun => exact h.exec hh hcode hrun
  | enter hh hflag => exact h.enter hsys hh hflag
  | handle hh hcode hrun => exact h.handle hh hcode hrun
  | leave hh hdone => exact h.leave _ hh hdone

theorem Invariant.reachable (hsys : sys.WellFormed guarded) {current : Thread}
    (h : Runs.Reachable (Step sys) (State.start current) s) : Invariant guarded s :=
  h.invariant (fun _ _ _ hs hstep => hs.step hsys hstep) (start_invariant current)

/-- No thread stands inside a guarded section when an event can be accepted. -/
theorem Invariant.guarded_outside (h : Invariant guarded s)
    (hflag : (s.threads s.current).flag = true) {t : Thread} {l : Lock} (hl : guarded t l) :
    inside l (s.threads t).code = false := by
  have henabled := h.all_enabled hflag t
  have hnow := h.disciplined t
  generalize (s.threads t).code = code at hnow ⊢
  cases code with
  | nil => rfl
  | cons i rest =>
    by_contra hin
    have := hnow.1 l hl (by simpa using hin)
    simp [henabled] at this

/-- The handler of the accepted event takes none of the locks in `L` that a thread stands inside. -/
def Clears (sys : System Lock Thread Event) (L : Lock → Prop) (s : State Lock Thread Event)
    (a : Action Lock Thread Event) : Prop :=
  ∀ e, a = .enter e → ∀ l, L l → .acquire l ∈ sys.handler e → ∀ t, inside l (s.threads t).code = false

theorem Unobstructed.step {L : Lock → Prop} (h : Unobstructed L s) (hstep : Step sys s a s')
    (hclear : Clears sys L s a) : Unobstructed L s' := by
  cases hstep with
  | fetch hh => exact unobstructed_idle hh
  | exec hh => exact unobstructed_idle hh
  | enter hh =>
    rintro p ⟨⟩
    exact hclear _ rfl
  | handle hh hcode =>
    rintro p ⟨⟩ l hl hmem
    refine h _ hh l hl ?_
    simp only [hcode]
    exact List.mem_cons_of_mem _ hmem
  | leave => exact unobstructed_idle rfl

theorem Unobstructed.before {L : Lock → Prop} (hs : Invariant guarded s) (hstep : Step sys s a s')
    (h : Unobstructed L s') : Unobstructed L s ∧ Clears sys L s a := by
  cases hstep with
  | fetch hh => exact ⟨unobstructed_idle hh,fun e he => by cases he⟩
  | exec hh => exact ⟨unobstructed_idle hh,fun e he => by cases he⟩
  | enter hh =>
    refine ⟨unobstructed_idle hh,?_⟩
    rintro e ⟨⟩
    exact h _ rfl
  | handle hh hcode hrun =>
    refine ⟨?_,fun e he => by cases he⟩
    intro p hp l hl hmem t
    obtain rfl := Option.some.inj (hh.symm.trans hp)
    by_contra hin
    have hheld := (hs.threadOwner l t).mpr (by simpa using hin)
    simp only [hcode] at hmem
    rcases List.mem_cons.mp hmem with rfl | hmem
    · simp [runInstr,hheld] at hrun
    · exact hin (h _ rfl l hl hmem t)
  | leave hh hdone =>
    refine ⟨?_,fun e he => by cases he⟩
    intro p hp l hl hmem
    obtain rfl := Option.some.inj (hh.symm.trans hp)
    simp [hdone] at hmem

/-- A run leaves the way of its last handler clear exactly if it accepted every event in a
state that `condition` finds clear. -/
theorem unobstructed_iff (hsys : sys.WellFormed guarded) {L : Lock → Prop}
    {condition : State Lock Thread Event → Action Lock Thread Event → Prop}
    (hclear : ∀ s a s', Invariant guarded s → Step sys s a s' → (Clears sys L s a ↔ condition s a))
    {current : Thread} {path : List (Action Lock Thread Event × State Lock Thread Event)}
    (hrun : Runs.Along (Step sys) (State.start current) path) :
    Unobstructed L (Runs.final (State.start current) path) ↔
      Runs.Along (fun s a _ => condition s a) (State.start current) path := by
  have hexact : ∀ s a s', Invariant guarded s → Step sys s a s' →
      (Unobstructed L s' ↔ Unobstructed L s ∧ condition s a) := by
    intro s a s' hs hstep
    rw [← hclear s a s' hs hstep]
    exact ⟨Unobstructed.before hs hstep,fun h => h.1.step hstep h.2⟩
  have hfinal := Runs.final_iff (fun _ _ _ hs hstep => hs.step hsys hstep) hexact
    (start_invariant current) hrun
  exact hfinal.trans (and_iff_right (unobstructed_idle rfl))

/-- A handler whose way is clear comes to its end, with the threads as it has found them. -/
theorem Unobstructed.finishes (h : Unobstructed (fun _ => True) s) (hs : Invariant guarded s) {e : Event}
    {c : Context Lock} (hh : s.handler = some (e,c)) :
    ∃ s' c', Runs.Repeats (Step sys) .handle s s' ∧ s'.handler = some (e,c') ∧
      c'.code = [] ∧ s'.threads = s.threads ∧ s'.current = s.current := by
  generalize hcode : c.code = code
  induction code generalizing s c with
  | nil => exact ⟨s,c,.refl,hh,hcode,rfl,rfl⟩
  | cons i rest ih =>
    have hrun : ∃ owner, runInstr .handler s.owner i = some owner := by
      cases i with
      | acquire l =>
        have hfree : s.owner l = none := by
          cases howner : s.owner l with
          | none => rfl
          | some who =>
            cases who with
            | thread t =>
              have hout := h _ hh l trivial (by simp [hcode]) t
              rw [(hs.threadOwner l t).mp howner] at hout
              cases hout
            | handler =>
              obtain ⟨p,hp,hin⟩ := (hs.handlerOwner l).mp howner
              obtain rfl := Option.some.inj (hh.symm.trans hp)
              simp [hcode,inside] at hin
        exact ⟨_,if_pos hfree⟩
      | release l => exact ⟨_,rfl⟩
      | mask => exact ⟨_,rfl⟩
      | unmask => exact ⟨_,rfl⟩
    obtain ⟨owner,hrun⟩ := hrun
    have hstep : Step sys s .handle _ := .handle hh hcode hrun
    obtain ⟨s',c',hreach,hdone⟩ := ih (h.step hstep fun _ he => by cases he) (hs.handle hh hcode hrun) rfl rfl
    exact ⟨s',c',.head hstep hreach,hdone⟩

theorem handler_suffix {current : Thread} (h : Runs.Reachable (Step sys) (State.start current) s) :
    ∀ p, s.handler = some p → p.2.code <:+ sys.handler p.1 := by
  refine h.invariant (I := fun s => ∀ p, s.handler = some p → p.2.code <:+ sys.handler p.1) ?_
    (by simp [State.start])
  intro s a s' hs hstep
  cases hstep with
  | fetch => exact hs
  | exec => exact hs
  | enter =>
    rintro p ⟨⟩
    exact List.suffix_rfl
  | handle hh hcode =>
    rintro p ⟨⟩
    have hold := hs _ hh
    simp only [hcode] at hold
    exact (List.suffix_cons _ _).trans hold
  | leave => simp

end
end LockMachine
end EnosKernel
