import Wasabi.Serial.Port

/-!
# The device behind the serial port

A 16550A as far as its registers depend on one another: while the divisor
latch is open, the first two ports lead to the divisor. The initialisation
closes the latch whatever state the device is in, and without it a text may
end up in the divisor instead of on the line.
-/

set_option autoImplicit false

namespace Wasabi.Serial.Setup
open Wasabi.Rust Wasabi.Outcome Wasabi.PolledOutput Wasabi.Serial.Port

/-- The registers, and what went to the transmitter. -/
structure Uart where
  interruptEnable : UInt8
  fifoControl : UInt8
  lineControl : UInt8
  modemControl : UInt8
  divisorLow : UInt8
  divisorHigh : UInt8
  sent : List UInt8
  deriving DecidableEq

/-- The divisor latch access bit. -/
def Uart.dlab (u : Uart) : Bool := u.lineControl &&& 0x80 != 0

def Uart.write (u : Uart) (offset : ℕ) (data : UInt8) : Uart :=
  match offset with
  | 0 => if u.dlab then {u with divisorLow := data} else {u with sent := u.sent++[data]}
  | 1 => if u.dlab then {u with divisorHigh := data} else {u with interruptEnable := data}
  | 2 => {u with fifoControl := data}
  | 3 => {u with lineControl := data}
  | 4 => {u with modemControl := data}
  | _ => u

/-- The device at `base` on the bus. -/
def Uart.access (base : ℕ) (u : Uart) : Access ℕ UInt8 → Uart
  | .read _ _ => u
  | .write port data => if base ≤ port then u.write (port-base) data else u

def replay (base : ℕ) (u : Uart) (trace : List (Access ℕ UInt8)) : Uart :=
  trace.foldl (Uart.access base) u

def writeRegister (self : SerialPort) (offset : ℕ) (data : UInt8) : Io Unit := do
  let port ← observe (fun _ => addU16 self.base offset)
  writeIoPortU8 port data

def baudDivisor : ℕ := 0x0001

def init (self : SerialPort) : Io Unit := do
  writeRegister self 1 0x00
  writeRegister self 3 0x80
  writeIoPortU8 self.base (UInt8.ofNat (baudDivisor &&& 0xff))
  writeRegister self 1 (UInt8.ofNat (baudDivisor >>> 8))
  writeRegister self 3 0x03
  writeRegister self 2 0xC7
  writeRegister self 4 0x08

/-- 115200 baud, eight bits, no parity and one stop bit. The first write misses
the interrupts if the latch is open. -/
def configured (u : Uart) : Uart :=
  ⟨if u.dlab then u.interruptEnable else 0,0xC7,0x03,0x08,1,0,u.sent⟩

def initTrace (base : ℕ) : List (Access ℕ UInt8) :=
  [.write (base+1) 0x00,.write (base+3) 0x80,.write base 1,.write (base+1) 0,
    .write (base+3) 0x03,.write (base+2) 0xC7,.write (base+4) 0x08]

theorem writeRegister_runs (self : SerialPort) (offset : ℕ) (data : UInt8) (bus : Bus)
    (h : self.base+offset < 2^16) : writeRegister self offset data bus =
      .ok (.ok (),{bus with trace := bus.trace++[.write (self.base+offset) data]}) := by
  have hport : addU16 self.base offset = .ok (self.base+offset) := if_pos h
  rw [writeRegister, run_bind _ _ _ _ _ (observe_ok _ bus _ hport), writeIoPortU8]

theorem init_runs (self : SerialPort) (hbase : self.base ≤ 0xFFFA) (bus : Bus) :
    init self bus = .ok (.ok (),{bus with trace := bus.trace++initTrace self.base}) := by
  have hreg : ∀ offset ≤ 4, ∀ data bus, writeRegister self offset data bus =
      .ok (.ok (),{bus with trace := bus.trace++[.write (self.base+offset) data]}) :=
    fun offset ho data bus => writeRegister_runs self offset data bus (by omega)
  have hdata : ∀ data bus, writeIoPortU8 self.base data bus =
      .ok (.ok (),{bus with trace := bus.trace++[.write self.base data]}) := fun _ _ => rfl
  rw [init, run_bind _ _ _ _ _ (hreg 1 (by decide) _ _),
    run_bind _ _ _ _ _ (hreg 3 (by decide) _ _), run_bind _ _ _ _ _ (hdata _ _),
    run_bind _ _ _ _ _ (hreg 1 (by decide) _ _), run_bind _ _ _ _ _ (hreg 3 (by decide) _ _),
    run_bind _ _ _ _ _ (hreg 2 (by decide) _ _), hreg 4 (by decide)]
  simp only [List.append_assoc, List.cons_append, List.nil_append]
  rfl

theorem init_configures (base : ℕ) (u : Uart) : replay base u (initTrace base) = configured u := by
  by_cases hd : u.lineControl &&& 0x80 = 0
  · simp [replay, initTrace, Uart.access, Uart.write, configured, Uart.dlab, hd]
  · simp [replay, initTrace, Uart.access, Uart.write, configured, Uart.dlab, hd]

/-- Writes to the data port of a device whose latch is closed. -/
theorem replay_closed (base : ℕ) (trace : List (Access ℕ UInt8))
    (h : ∀ p d, .write p d ∈ trace → p = base) (u : Uart) (hu : u.dlab = false) :
    replay base u trace = {u with sent := u.sent++trace.filterMap Access.written} := by
  induction trace generalizing u with
  | nil => rw [List.filterMap_nil, List.append_nil, replay, List.foldl_nil]
  | cons a trace ih =>
    have htail : ∀ p d, .write p d ∈ trace → p = base :=
      fun p d hm => h p d (List.mem_cons_of_mem a hm)
    cases a with
    | read p d => exact ih htail u hu
    | write p d =>
      obtain rfl := h p d List.mem_cons_self
      have hstep : Uart.access p u (.write p d) = {u with sent := u.sent++[d]} := by
        rw [Uart.access, if_pos le_rfl, Nat.sub_self, Uart.write, hu]
        rfl
      change replay p (Uart.access p u (.write p d)) trace = _
      rw [hstep, ih htail {u with sent := u.sent++[d]} hu]
      simp [Access.written]

/-- With the latch open nothing goes to the transmitter. -/
theorem replay_open (base : ℕ) (trace : List (Access ℕ UInt8))
    (h : ∀ p d, .write p d ∈ trace → p = base) (u : Uart) (hu : u.dlab = true) :
    (replay base u trace).sent = u.sent := by
  induction trace generalizing u with
  | nil => rfl
  | cons a trace ih =>
    have htail : ∀ p d, .write p d ∈ trace → p = base :=
      fun p d hm => h p d (List.mem_cons_of_mem a hm)
    cases a with
    | read p d => exact ih htail u hu
    | write p d =>
      obtain rfl := h p d List.mem_cons_self
      have hstep : Uart.access p u (.write p d) = {u with divisorLow := d} := by
        rw [Uart.access, if_pos le_rfl, Nat.sub_self, Uart.write, hu]
        rfl
      change (replay p (Uart.access p u (.write p d)) trace).sent = _
      rw [hstep]
      exact ih htail {u with divisorLow := d} hu

theorem configured_closed (u : Uart) : (configured u).dlab = false :=
  (by decide : ((0x03 : UInt8) &&& 0x80 != 0) = false)

/-- What the initialisation is for: behind it a text goes to the line, in the
format that was set up; without it that is so only if the latch is closed. -/
theorem init_then_send (base : ℕ) (hbase : base ≤ 0xFFFA) (s : List Char) (u : Uart)
    (incoming : ℕ → UInt8) (h : Served s.length incoming) :
    ∃ N bus bus', (∀ fuel ≥ N,
        (do init (.new base); sendStr (.new base) fuel s : Io Unit) ⟨incoming,[]⟩ =
          .ok (.ok (),bus) ∧
        sendStr (.new base) fuel s ⟨incoming,[]⟩ = .ok (.ok (),bus')) ∧
      replay base u bus.trace = {configured u with
        sent := u.sent++s.map (fun c => UInt8.ofNat c.toNat)} ∧
      ((replay base u bus'.trace).sent = u.sent++s.map (fun c => UInt8.ofNat c.toNat) ↔
        u.dlab = false ∨ s = []) := by
  obtain ⟨N,rest,sent,hsent,hrun⟩ := sendNext_runs (.new base) hbase s incoming h
  refine ⟨N,⟨rest,initTrace base++sent⟩,_,fun fuel hfuel => ⟨?_,hrun fuel hfuel []⟩,?_,?_⟩
  · rw [run_bind _ _ _ _ _ (init_runs (.new base) hbase ⟨incoming,[]⟩)]
    exact hrun fuel hfuel _
  · have hsplit : replay base u (initTrace base++sent) =
        replay base (replay base u (initTrace base)) sent := List.foldl_append
    rw [hsplit, init_configures, replay_closed base sent hsent.writes _ (configured_closed u),
      hsent.data]
    rfl
  · change (replay base u sent).sent = _ ↔ _
    cases hu : u.dlab with
    | false =>
      rw [replay_closed base sent hsent.writes u hu, hsent.data]
      simp
    | true =>
      rw [replay_open base sent hsent.writes u hu]
      simp

/-- A port whose latch has been left open. -/
theorem init_then_send_open :
    let u : Uart := ⟨0,0,0x83,0,12,0,[]⟩
    ∃ N bus bus', (∀ fuel ≥ N,
        (do init (.new 0x3f8); sendStr (.new 0x3f8) fuel ['A'] : Io Unit) ⟨fun _ => 0x20,[]⟩ =
          .ok (.ok (),bus) ∧
        sendStr (.new 0x3f8) fuel ['A'] ⟨fun _ => 0x20,[]⟩ = .ok (.ok (),bus')) ∧
      replay 0x3f8 u bus.trace = {configured u with
        sent := u.sent++['A'].map (fun c => UInt8.ofNat c.toNat)} ∧
      ((replay 0x3f8 u bus'.trace).sent = u.sent++['A'].map (fun c => UInt8.ofNat c.toNat) ↔
        u.dlab = false ∨ ['A'] = []) :=
  init_then_send 0x3f8 (by decide) ['A'] _ (fun _ => 0x20) ⟨0,by simp,by decide,trivial⟩

end Wasabi.Serial.Setup
