import Mathlib.Tactic
import Mathlib.Order.CompletePartialOrder

/-! Byte-addressed memory of a 32-bit machine.  Words are read and written at any address,
low byte first; what lies in a row is described as a list of words at an address. -/
namespace EnosKernel
namespace ByteMemory

abbrev Memory := UInt32 → UInt8

def byteOf (x : UInt32) (i : ℕ) : UInt8 := UInt8.ofNat (x.toNat/256^i)

def wordBytes (x : UInt32) : List UInt8 := [byteOf x 0,byteOf x 1,byteOf x 2,byteOf x 3]

/-- The word with these bytes, the first one lowest. -/
def ofBytes (a b c d : UInt8) : UInt32 :=
  UInt32.ofNat (a.toNat+256*(b.toNat+256*(c.toNat+256*d.toNat)))

def read (m : Memory) (a : UInt32) : UInt32 := ofBytes (m a) (m (a+1)) (m (a+2)) (m (a+3))

def write (m : Memory) (a x : UInt32) : Memory := fun b =>
  if (b-a).toNat < 4 then byteOf x (b-a).toNat else m b

/-- The addresses of `n` bytes from `a` on, short of the end of the address space. -/
def span (a : UInt32) (n : ℕ) : Set UInt32 := {b | a.toNat ≤ b.toNat ∧ b.toNat < a.toNat+n}

theorem ofBytes_byteOf (x : UInt32) : ofBytes (byteOf x 0) (byteOf x 1) (byteOf x 2) (byteOf x 3) = x := by
  apply UInt32.toNat_inj.mp
  have hx := x.toNat_lt
  simp only [ofBytes,byteOf,UInt8.toNat_ofNat',UInt32.toNat_ofNat']
  omega

theorem read_write_self (m : Memory) (a x : UInt32) : read (write m a x) a = x := by
  have h0 : a-a = 0 := UInt32.sub_self a
  have h1 : a+1-a = 1 := by rw [UInt32.add_comm,UInt32.add_sub_cancel]
  have h2 : a+2-a = 2 := by rw [UInt32.add_comm,UInt32.add_sub_cancel]
  have h3 : a+3-a = 3 := by rw [UInt32.add_comm,UInt32.add_sub_cancel]
  simp only [read,write,h0,h1,h2,h3]
  exact ofBytes_byteOf x

theorem toNat_add {a b : UInt32} (h : a.toNat+b.toNat < 2^32) : (a+b).toNat = a.toNat+b.toNat := by
  rw [UInt32.toNat_add,Nat.mod_eq_of_lt h]

theorem toNat_sub {a b : UInt32} (h : b.toNat ≤ a.toNat) : (a-b).toNat = a.toNat-b.toNat := by
  have hbound := a.toNat_lt
  rw [UInt32.toNat_sub]
  omega

theorem write_outside {m : Memory} {a b x : UInt32} (ha : a.toNat+4 ≤ 2^32) (hb : b ∉ span a 4) :
    write m a x b = m b := by
  have hbound := b.toNat_lt
  have hout : ¬(a.toNat ≤ b.toNat ∧ b.toNat < a.toNat+4) := hb
  have hfar : ¬(b-a).toNat < 4 := by
    rw [UInt32.toNat_sub]
    omega
  exact if_neg hfar

def AgreeOn (s : Set UInt32) (m m' : Memory) : Prop := ∀ b ∈ s, m b = m' b

namespace AgreeOn

variable {s t : Set UInt32} {m m' m'' : Memory}

theorem refl : AgreeOn s m m := fun _ _ => rfl

theorem symm (h : AgreeOn s m m') : AgreeOn s m' m := fun b hb => (h b hb).symm

theorem trans (h : AgreeOn s m m') (h' : AgreeOn s m' m'') : AgreeOn s m m'' :=
  fun b hb => (h b hb).trans (h' b hb)

theorem mono (h : AgreeOn t m m') (hst : s ⊆ t) : AgreeOn s m m' := fun b hb => h b (hst hb)

end AgreeOn

theorem agreeOn_write {s : Set UInt32} {m : Memory} {a x : UInt32} (ha : a.toNat+4 ≤ 2^32)
    (hs : Disjoint s (span a 4)) : AgreeOn s m (write m a x) :=
  fun _ hb => (write_outside ha (Set.disjoint_left.mp hs hb)).symm

theorem read_congr {m m' : Memory} {a : UInt32} (ha : a.toNat+4 ≤ 2^32) (h : AgreeOn (span a 4) m m') :
    read m a = read m' a := by
  have hin (i : UInt32) (hi : i.toNat < 4) : m (a+i) = m' (a+i) := by
    apply h
    have hsum : (a+i).toNat = a.toNat+i.toNat := toNat_add (by omega)
    exact ⟨by omega,by omega⟩
  have h0 := hin 0 (by decide)
  rw [UInt32.add_zero] at h0
  rw [read,read,h0,hin 1 (by decide),hin 2 (by decide),hin 3 (by decide)]

def bytesAt (m : Memory) (a : UInt32) (n : ℕ) : List UInt8 := (List.range n).map fun i => m (a+UInt32.ofNat i)

theorem bytesAt_congr {m m' : Memory} {a : UInt32} {n : ℕ} (ha : a.toNat+n ≤ 2^32) (h : AgreeOn (span a n) m m') :
    bytesAt m a n = bytesAt m' a n := by
  refine List.map_congr_left fun i hi => h _ ?_
  have hlt := List.mem_range.mp hi
  have hsmall : (UInt32.ofNat i).toNat = i := UInt32.toNat_ofNat_of_lt' (by change i < 2^32; omega)
  have hsum : (a+UInt32.ofNat i).toNat = a.toNat+i := by rw [toNat_add] <;> rw [hsmall]; omega
  exact ⟨by omega,by omega⟩

/-- The words lie in a row from an address on. -/
def WordsAt (m : Memory) (a : UInt32) : List UInt32 → Prop
  | [] => True
  | w::ws => read m a = w ∧ WordsAt m (a+4) ws

theorem WordsAt.get {m : Memory} {a : UInt32} {ws : List UInt32} (h : WordsAt m a ws) {i : ℕ} {w : UInt32}
    (hi : ws[i]? = some w) : read m (a+UInt32.ofNat (4*i)) = w := by
  induction ws generalizing a i with
  | nil => simp at hi
  | cons v ws ih =>
    cases i with
    | zero =>
      have hself : a+UInt32.ofNat (4*0) = a := UInt32.add_zero a
      rw [hself,h.1]
      simpa using hi
    | succ i =>
      rw [← ih h.2 (by simpa using hi),Nat.mul_succ,UInt32.ofNat_add,UInt32.add_comm (UInt32.ofNat (4*i)),
        ← UInt32.add_assoc]
      rfl

theorem toNat_add_four {a : UInt32} {n : ℕ} (h : a.toNat+4*(n+1) < 2^32) : (a+4).toNat = a.toNat+4 :=
  toNat_add (by simp only [UInt32.reduceToNat]; omega)

theorem span_tail {a : UInt32} {n : ℕ} (h : a.toNat+4*(n+1) < 2^32) : span (a+4) (4*n) ⊆ span a (4*(n+1)) := by
  intro b hb
  have hnext := toNat_add_four h
  exact ⟨by have := hb.1; omega,by have := hb.2; omega⟩

theorem WordsAt.congr {m m' : Memory} {a : UInt32} {ws : List UInt32} (h : WordsAt m a ws)
    (ha : a.toNat+4*ws.length < 2^32) (hagree : AgreeOn (span a (4*ws.length)) m m') : WordsAt m' a ws := by
  induction ws generalizing a with
  | nil => trivial
  | cons w ws ih =>
    rw [List.length_cons] at ha hagree
    refine ⟨?_,ih h.2 ?_ (hagree.mono (span_tail ha))⟩
    · have hfirst : span a 4 ⊆ span a (4*(ws.length+1)) := fun b hb => ⟨hb.1,by have := hb.2; omega⟩
      rw [← read_congr (by omega) (hagree.mono hfirst)]
      exact h.1
    · rw [toNat_add_four ha]
      omega

theorem WordsAt.push {m : Memory} {a : UInt32} {ws : List UInt32} (h : WordsAt m a ws) (x : UInt32)
    (hroom : 4 ≤ a.toNat) (ha : a.toNat+4*ws.length < 2^32) : WordsAt (write m (a-4) x) (a-4) (x::ws) := by
  have hback : a-4+4 = a := UInt32.sub_add_cancel a 4
  have hlow : (a-4).toNat = a.toNat-4 := toNat_sub (by simpa using hroom)
  refine ⟨read_write_self m _ x,?_⟩
  rw [hback]
  refine h.congr ha (agreeOn_write (by omega) ?_)
  rw [Set.disjoint_left]
  intro b hb hb'
  have := hb.1
  have := hb'.2
  omega

theorem WordsAt.set {m : Memory} {a : UInt32} {ws : List UInt32} (h : WordsAt m a ws) (i : ℕ) (x : UInt32)
    (hi : i < ws.length) (ha : a.toNat+4*ws.length < 2^32) :
    WordsAt (write m (a+UInt32.ofNat (4*i)) x) a (ws.set i x) := by
  induction ws generalizing a i with
  | nil => simp at hi
  | cons w ws ih =>
    rw [List.length_cons] at hi ha
    have hnext := toNat_add_four ha
    cases i with
    | zero =>
      have hself : a+UInt32.ofNat (4*0) = a := UInt32.add_zero a
      rw [hself]
      refine ⟨read_write_self m a x,h.2.congr (by omega) (agreeOn_write (by omega) ?_)⟩
      rw [Set.disjoint_left]
      rintro b ⟨hge,-⟩ ⟨-,hlt⟩
      omega
    | succ i =>
      have hmove : a+UInt32.ofNat (4*(i+1)) = a+4+UInt32.ofNat (4*i) := by
        rw [Nat.mul_succ,UInt32.ofNat_add,UInt32.add_comm (UInt32.ofNat (4*i)),← UInt32.add_assoc]
        rfl
      have hplace : (a+4+UInt32.ofNat (4*i)).toNat = a.toNat+4+4*i := by
        rw [toNat_add] <;> rw [UInt32.toNat_ofNat_of_lt' (by change 4*i < 2^32; omega)] <;> omega
      rw [hmove]
      refine ⟨?_,ih h.2 i (by omega) (by omega)⟩
      rw [← h.1]
      refine (read_congr (by omega) (agreeOn_write (by omega) ?_)).symm
      rw [Set.disjoint_left]
      rintro b ⟨-,hlt⟩ ⟨hge,-⟩
      omega

/-- Words stored one below the other, as a stack that grows downwards takes them: the memory
then and the address of the last word. -/
def stored (m : Memory) (a : UInt32) : List UInt32 → Memory × UInt32
  | [] => (m,a)
  | w::ws => stored (write m (a-4) w) (a-4) ws

theorem stored_append (m : Memory) (a : UInt32) (ws vs : List UInt32) :
    stored m a (ws++vs) = stored (stored m a ws).1 (stored m a ws).2 vs := by
  induction ws generalizing m a with
  | nil => rfl
  | cons w ws ih => exact ih _ _

/-- The words lie below the address, the last one lowest, and nothing else is written. -/
theorem stored_spec {m : Memory} {a : UInt32} (ws held : List UInt32) (hheld : WordsAt m a held)
    (hroom : 4*ws.length ≤ a.toNat) (htop : a.toNat+4*held.length < 2^32) :
    (stored m a ws).2.toNat = a.toNat-4*ws.length ∧
    WordsAt (stored m a ws).1 (stored m a ws).2 (ws.reverse++held) ∧
    AgreeOn (span (stored m a ws).2 (4*ws.length))ᶜ m (stored m a ws).1 := by
  induction ws generalizing m a held with
  | nil => exact ⟨rfl,hheld,.refl⟩
  | cons w ws ih =>
    rw [List.length_cons] at hroom ⊢
    have hlow : (a-4).toNat = a.toNat-4 := toNat_sub (by simp only [UInt32.reduceToNat]; omega)
    obtain ⟨hsp,hwords,hagree⟩ := ih (w::held) (hheld.push w (by omega) htop) (by omega)
      (by rw [List.length_cons]; omega)
    rw [stored]
    refine ⟨by omega,by simpa using hwords,?_⟩
    intro b hb
    have hout : b ∉ span (a-4) 4 := by
      rintro ⟨hge,hlt⟩
      exact hb ⟨by omega,by omega⟩
    have hrest : b ∉ span (stored (write m (a-4) w) (a-4) ws).2 (4*ws.length) := by
      rintro ⟨hge,hlt⟩
      exact hb ⟨hge,by omega⟩
    rw [← hagree b hrest,write_outside (by omega) hout]

end ByteMemory
end EnosKernel
