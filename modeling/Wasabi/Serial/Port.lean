import Wasabi.Rust
import Wasabi.Support.Outcome
import Wasabi.Support.PolledOutput

/-!
# The serial port

A port is driven through two registers: the line status at `base + 5` is read
until the transmitter is empty, and then a byte goes to `base`. The device is
the sequence of the values that it will answer; what the processor does on
the bus is recorded. The `fmt::Write` path makes a port of its own for COM1.
-/

set_option autoImplicit false

namespace Wasabi.Serial.Port
open Wasabi.Rust Wasabi.Outcome Wasabi.PolledOutput

/-- The answers to come and the accesses made. -/
structure Bus where
  incoming : ℕ → UInt8
  trace : List (Access ℕ UInt8)

/-- The error is `fmt::Error`. -/
abbrev Io (α : Type) := Stateful Unit Bus Fault α

structure SerialPort where
  base : ℕ

def SerialPort.new (base : ℕ) : SerialPort := ⟨base⟩

def SerialPort.newForCom1 : SerialPort := .new 0x3f8

def SerialPort.default : SerialPort := .newForCom1

def addU16 (a b : ℕ) : Eval ℕ :=
  if a+b < 2^16 then .ok (a+b) else .error (.panic "attempt to add with overflow")

/-- `Option::unwrap`. -/
def unwrap {α : Type} : Option α → Eval α
  | some a => .ok a
  | none => .error (.panic "called `Option::unwrap()` on a `None` value")

def readIoPortU8 (port : ℕ) : Io UInt8 := fun bus =>
  .ok (.ok (bus.incoming 0),
    ⟨fun i => bus.incoming (i+1),bus.trace++[.read port (bus.incoming 0)]⟩)

def writeIoPortU8 (port : ℕ) (data : UInt8) : Io Unit := fun bus =>
  .ok (.ok (),{bus with trace := bus.trace++[.write port data]})

/-- The loop of `send_char`; the hint in its body is no access. -/
def waitEmpty (self : SerialPort) : ℕ → Io Unit
  | 0 => observe (fun _ => .error .outOfFuel)
  | fuel+1 => do
    let port ← observe (fun _ => addU16 self.base 5)
    let status ← readIoPortU8 port
    if status &&& 0x20 = 0 then waitEmpty self fuel else pure ()

def sendChar (self : SerialPort) (fuel : ℕ) (c : Char) : Io Unit := do
  waitEmpty self fuel
  writeIoPortU8 self.base (UInt8.ofNat c.toNat)

/-- `for _ in 0..n { self.send_char(sc.next().unwrap()) }`. -/
def sendNext (self : SerialPort) (fuel : ℕ) : ℕ → List Char → Io Unit
  | 0, _ => pure ()
  | n+1, sc => do
    let c ← observe (fun _ => unwrap sc.head?)
    sendChar self fuel c
    sendNext self fuel n sc.tail

def sendStr (self : SerialPort) (fuel : ℕ) (s : List Char) : Io Unit :=
  sendNext self fuel s.length s

/-- The method of `fmt::Write`. -/
def writeStr (_self : SerialPort) (fuel : ℕ) (s : List Char) : Io Unit := do
  let serial := SerialPort.default
  sendStr serial fuel s

/-- The transmitter is empty. -/
def Ready (status : UInt8) : Prop := status &&& 0x20 ≠ 0

instance (status : UInt8) : Decidable (Ready status) :=
  inferInstanceAs (Decidable (¬ status &&& 0x20 = 0))

/-- Each of the next `n` waits comes to an end. -/
def Served : ℕ → (ℕ → UInt8) → Prop
  | 0, _ => True
  | n+1, incoming => ∃ k, (∀ i < k, ¬ Ready (incoming i)) ∧ Ready (incoming k) ∧
      Served n (fun i => incoming (k+1+i))

/-- The trace sends the characters, cut to a byte, through the port at `base`. -/
def Drives (base : ℕ) (s : List Char) (trace : List (Access ℕ UInt8)) : Prop :=
  Polled Ready (base+5) base (s.map (fun c => UInt8.ofNat c.toNat)) trace

/-- The bus after a read of `port`. -/
def Bus.answered (bus : Bus) (port : ℕ) : Bus :=
  ⟨fun i => bus.incoming (i+1),bus.trace++[.read port (bus.incoming 0)]⟩

section Send
variable (self : SerialPort) (hbase : self.base ≤ 0xFFFA)
include hbase

theorem waitEmpty_step (fuel : ℕ) (bus : Bus) : waitEmpty self (fuel+1) bus =
    if Ready (bus.incoming 0) then .ok (.ok (),bus.answered (self.base+5))
    else waitEmpty self fuel (bus.answered (self.base+5)) := by
  have hport : addU16 self.base 5 = .ok (self.base+5) := if_pos (by omega)
  rw [waitEmpty, run_bind _ _ _ _ _ (observe_ok _ bus _ hport),
    run_bind (readIoPortU8 (self.base+5)) _ bus (bus.answered (self.base+5)) _ rfl]
  by_cases h : bus.incoming 0 &&& 0x20 = 0
  · have hbusy : ¬ Ready (bus.incoming 0) := not_not.mpr h
    rw [if_pos h, if_neg hbusy]
  · have hready : Ready (bus.incoming 0) := h
    rw [if_neg h, if_pos hready]
    rfl

/-- A wait reads the refusals and the answer that ends it. -/
theorem waitEmpty_runs (k fuel : ℕ) (bus : Bus) (hbusy : ∀ i < k, ¬ Ready (bus.incoming i))
    (hempty : Ready (bus.incoming k)) (hfuel : k < fuel) :
    waitEmpty self fuel bus = .ok (.ok (),⟨fun i => bus.incoming (k+1+i),
      bus.trace++(((List.range k).map bus.incoming).map (Access.read (self.base+5))++
        [.read (self.base+5) (bus.incoming k)])⟩) := by
  induction k generalizing fuel bus with
  | zero =>
    obtain ⟨fuel,rfl⟩ : ∃ m, fuel = m+1 := ⟨fuel-1,by omega⟩
    rw [waitEmpty_step self hbase, if_pos hempty, Bus.answered]
    simp [Nat.add_comm]
  | succ k ih =>
    obtain ⟨fuel,rfl⟩ : ∃ m, fuel = m+1 := ⟨fuel-1,by omega⟩
    rw [waitEmpty_step self hbase, if_neg (hbusy 0 (by omega)),
      ih fuel _ (fun i hi => hbusy (i+1) (by omega)) hempty (by omega)]
    simp only [Bus.answered, List.range_succ_eq_map, List.map_cons, List.map_map, List.append_assoc,
      List.cons_append, List.nil_append]
    congr 3
    funext i
    congr 1
    omega

/-- One character: the wait and the write behind it. -/
theorem sendChar_runs (k fuel : ℕ) (bus : Bus) (c : Char)
    (hbusy : ∀ i < k, ¬ Ready (bus.incoming i)) (hempty : Ready (bus.incoming k))
    (hfuel : k < fuel) :
    sendChar self fuel c bus = .ok (.ok (),⟨fun i => bus.incoming (k+1+i),
      bus.trace++(((List.range k).map bus.incoming).map (Access.read (self.base+5))++
        [.read (self.base+5) (bus.incoming k),.write self.base (UInt8.ofNat c.toNat)])⟩) := by
  rw [sendChar, run_bind _ _ _ _ _ (waitEmpty_runs self hbase k fuel bus hbusy hempty hfuel),
    writeIoPortU8]
  simp

/-- By induction on the characters, each of which takes the answers of its
own wait. -/
theorem sendNext_runs (s : List Char) (incoming : ℕ → UInt8) (h : Served s.length incoming) :
    ∃ N rest sent, Drives self.base s sent ∧ ∀ fuel ≥ N, ∀ trace,
      sendNext self fuel s.length s ⟨incoming,trace⟩ = .ok (.ok (),⟨rest,trace++sent⟩) := by
  induction s generalizing incoming with
  | nil =>
    refine ⟨0,incoming,[],polled_nil _ _ _,?_⟩
    intro fuel _ trace
    rw [List.append_nil]
    rfl
  | cons c s ih =>
    obtain ⟨k,hbusy,hempty,hserved⟩ := h
    obtain ⟨N,rest,sent,hsent,hrun⟩ := ih _ hserved
    have hfirst := polled_write Ready (self.base+5) self.base ((List.range k).map incoming)
      (incoming k) (UInt8.ofNat c.toNat) hempty
    refine ⟨max N (k+1),rest,_,polled_append _ _ _ _ _ _ _ hfirst hsent,?_⟩
    intro fuel hfuel trace
    have hnext : (observe (fun _ => unwrap (c::s).head?) : Io Char) ⟨incoming,trace⟩ =
      .ok (.ok c,⟨incoming,trace⟩) := rfl
    rw [List.length_cons, sendNext,
      run_bind _ _ _ _ _ hnext,
      run_bind _ _ _ _ _ (sendChar_runs self hbase k fuel ⟨incoming,trace⟩ c hbusy hempty
        (by omega)), List.tail_cons, hrun fuel (by omega), List.append_assoc]

end Send

/-- The `fmt::Write` path does what `send_str` does, and so drives its own
port, exactly if the port is COM1 or nothing is written. -/
theorem write_str_iff (base : ℕ) (hbase : base ≤ 0xFFFA) (s : List Char) (incoming : ℕ → UInt8)
    (h : Served s.length incoming) :
    ∃ N sent written, Drives base s sent.trace ∧
      (∀ fuel ≥ N, sendStr (.new base) fuel s ⟨incoming,[]⟩ = .ok (.ok (),sent) ∧
        writeStr (.new base) fuel s ⟨incoming,[]⟩ = .ok (.ok (),written)) ∧
      ((written = sent ∧ Drives base s written.trace) ↔ base = 0x3f8 ∨ s = []) := by
  obtain ⟨N,rest,sent,hsent,hrun⟩ := sendNext_runs (.new base) hbase s incoming h
  obtain ⟨M,rest',written,hwritten,hrun'⟩ :=
    sendNext_runs SerialPort.default (by decide) s incoming h
  refine ⟨max N M,⟨rest,sent⟩,⟨rest',written⟩,hsent,?_,?_⟩
  · intro fuel hfuel
    exact ⟨hrun fuel (by omega) [],hrun' fuel (by omega) []⟩
  · constructor
    · rintro ⟨-,hdrives⟩
      by_cases hs : s = []
      · exact Or.inr hs
      · have hne : s.map (fun c => UInt8.ofNat c.toNat) ≠ [] := by simpa using hs
        exact Or.inl (polled_port _ _ _ _ _ _ _ _ written hdrives hwritten hne)
    · intro hcond
      have hsame : (⟨rest',written⟩ : Bus) = ⟨rest,sent⟩ := by
        have h1 := hrun (max N M) (by omega) []
        have h2 := hrun' (max N M) (by omega) []
        rcases hcond with rfl | rfl
        · have heq := h2.symm.trans h1
          simpa using heq
        · have heq := h2.symm.trans h1
          simpa using heq
      have hwritten' : written = sent := congrArg Bus.trace hsame
      exact ⟨hsame,hwritten' ▸ hsent⟩

theorem write_str_iff_com2 :
    ∃ N sent written, Drives 0x2f8 ['A'] sent.trace ∧
      (∀ fuel ≥ N, sendStr (.new 0x2f8) fuel ['A'] ⟨fun _ => 0x20,[]⟩ = .ok (.ok (),sent) ∧
        writeStr (.new 0x2f8) fuel ['A'] ⟨fun _ => 0x20,[]⟩ = .ok (.ok (),written)) ∧
      ((written = sent ∧ Drives 0x2f8 ['A'] written.trace) ↔ 0x2f8 = 0x3f8 ∨ ['A'] = []) :=
  write_str_iff 0x2f8 (by decide) ['A'] (fun _ => 0x20) ⟨0,by simp,by decide,trivial⟩

/-- A port of COM2: its text goes to COM1. -/
theorem other_port_written :
    sendStr (.new 0x2f8) 1 ['A'] ⟨fun _ => 0x20,[]⟩ =
      .ok (.ok (),⟨fun _ => 0x20,[.read 0x2fd 0x20,.write 0x2f8 0x41]⟩) ∧
    writeStr (.new 0x2f8) 1 ['A'] ⟨fun _ => 0x20,[]⟩ =
      .ok (.ok (),⟨fun _ => 0x20,[.read 0x3fd 0x20,.write 0x3f8 0x41]⟩) ∧
    ¬ Drives 0x2f8 ['A'] [.read 0x3fd 0x20,.write 0x3f8 0x41] := by
  refine ⟨rfl,rfl,?_⟩
  intro h
  have hport := h.writes 0x3f8 0x41 (by decide)
  cases hport

end Wasabi.Serial.Port
