import Xv6Rust.MonitorPhases
import Xv6Rust.ConsoleLine

/-!
# UART output

`putc`, `transmit`, `intr` and `putc_sync` of `driver/uart.rs`. Processes put bytes into a ring
under the lock of the UART and sleep while it is full; a process or the interrupt handler, which
take turns with the lock, moves bytes from the ring to the chip whenever it says that it is idle.
`putc_sync` goes to the chip without the lock, on every CPU. The chip is a 16550 with its FIFO on,
as `init` sets it up: it is idle while the FIFO is empty, and interrupts when it gets empty.

The handlers are threads of the section as well. They do not sleep, so their entries of the table,
at which `wakeup` looks, make no difference.
-/

namespace Xv6Rust.UartOutput

open Runs Monitors
open ConsoleLine (consoleBuf index_inj index_succ)

/-- `UART_BUF` -/
def uartBuf : ℕ := 32

/-- The FIFO of the chip. -/
def fifoSize : ℕ := 16

/-- `NCPU` -/
def ncpu : ℕ := 8

/-- `Uart` -/
structure Uart where
  buf : Fin uartBuf → UInt8
  ri : UInt64
  wi : UInt64

/-- Who wrote a byte to the chip. -/
inductive Origin where
  /-- `transmit` -/
  | buffered
  /-- `putc_sync` -/
  | direct
  deriving DecidableEq

/-- The transmitter of the chip. -/
structure Chip where
  /-- Bytes that wait in the FIFO. -/
  fifo : List (Origin × UInt8)
  /-- Bytes that were sent. -/
  line : List (Origin × UInt8)
  /-- Bytes that were written while the FIFO was full. -/
  lost : List (Origin × UInt8)
  /-- The FIFO got empty and no CPU has claimed the interrupt. -/
  pending : Bool

/-- `WriteReg!(THR, c)` -/
def Chip.write (chip : Chip) (origin : Origin) (c : UInt8) : Chip :=
  if chip.fifo.length < fifoSize then
    {chip with fifo := chip.fifo++[(origin,c)], pending := false}
  else {chip with lost := chip.lost++[(origin,c)]}

/-- What the lock protects, the chip, and the bytes that `putc` has taken on. -/
structure Data where
  uart : Uart
  chip : Chip
  /-- `PANICKED` -/
  panicked : Bool
  accepted : List UInt8

/-- Where a thread is. -/
inductive Pc where
  /-- Not in the UART. -/
  | idle
  /-- `putc`, before it reads `PANICKED`. -/
  | check (c : UInt8)
  /-- `putc`, at the test of its loop. -/
  | room (c : UInt8)
  /-- `transmit`, at the test of its loop. -/
  | test
  /-- `transmit`, in its loop. -/
  | fetch
  /-- `transmit`, before `wakeup`. -/
  | notify (c : UInt8)
  /-- `transmit`, before it writes to the chip. -/
  | send (c : UInt8)

/-- The slot of an index. -/
def slot (i : UInt64) : Fin uartBuf := ⟨i.toNat%uartBuf,Nat.mod_lt _ (by decide)⟩

/-- The ring is full. -/
def Uart.full (u : Uart) : Bool := u.wi=u.ri+UInt64.ofNat uartBuf

/-- `putc` and `intr`, whose last statement is `transmit` under the lock. -/
def driver : Program Unit Data Pc Unit where
  enters
    | .idle,.check _ => true
    | .idle,.test => true
    | _,_ => false
  next _ _ t d :=
    match t with
    | .check c => if d.panicked=true then .update d (.check c) else .update d (.room c)
    | .room c =>
      if d.uart.full=true then .sleep () (.room c)
      else .update {d with
        uart := {d.uart with
          buf := Function.update d.uart.buf (slot d.uart.wi) c
          wi := d.uart.wi+1}
        accepted := d.accepted++[c]} .test
    | .test =>
      if d.uart.wi≠d.uart.ri ∧ d.chip.fifo=[] then .update d .fetch else .leave .idle
    | .fetch =>
      .update {d with uart := {d.uart with ri := d.uart.ri+1}}
        (.notify (d.uart.buf (slot d.uart.ri)))
    | .notify c => .wake () (.send c)
    | .send c => .update {d with chip := d.chip.write .buffered c} .test
    | .idle => .leave .idle

/-- Where a CPU is in `putc_sync`. -/
inductive Sync where
  /-- Not there. -/
  | idle
  /-- In the loop. -/
  | polling (c : UInt8)
  /-- After the loop. -/
  | seen (c : UInt8)
  deriving DecidableEq

/-- The loop of `putc_sync` has ended, and its byte is not yet written. -/
def Sync.sees : Sync → Bool
  | .seen _ => true
  | _ => false

/-- Threads, CPUs and the bytes that `putc_sync` has written. -/
structure System where
  threads : Monitors.System Unit Data Pc
  sync : ℕ → Sync
  written : List UInt8

/-- The steps. -/
inductive Action where
  /-- A step of a thread. -/
  | code (a : Label Pc Unit)
  /-- A CPU claims an interrupt of the chip, and the handler gets to `transmit`. -/
  | claim (p : ℕ)
  /-- The chip sends a byte. -/
  | drain
  /-- `putc_sync` is called. -/
  | sync (cpu : ℕ) (c : UInt8)
  /-- `putc_sync` reads whether the chip is idle. -/
  | poll (cpu : ℕ)
  /-- `putc_sync` writes its byte. -/
  | put (cpu : ℕ)
  /-- `PANICKED` is set. -/
  | panic

/-- The data changes without a thread. -/
def System.setData (s : System) (d : Data) : System := {s with threads := {s.threads with data := d}}

/-- A step of the threads. -/
def System.onThreads (s : System) (n : ℕ) (a : Label Pc Unit) : Outcome Empty System :=
  (Monitors.step driver n s.threads a).bind fun m => .next {s with threads := m}

/-- One step, in a table of `n` threads. -/
def step (n : ℕ) (s : System) : Action → Outcome Empty System
  | .code a => s.onThreads n a
  | .claim p =>
    let d := s.threads.data
    (s.setData {d with chip := {d.chip with pending := false}}).onThreads n (.call p .test)
  | .drain =>
    let d := s.threads.data
    match d.chip.fifo with
    | [] => .blocked
    | b::rest => .next (s.setData {d with chip := {d.chip with
        fifo := rest
        line := d.chip.line++[b]
        pending := d.chip.pending || rest.isEmpty}})
  | .sync cpu c =>
    -- Once `PANICKED` is set, `putc_sync` does not return.
    if cpu < ncpu ∧ s.sync cpu=.idle ∧ s.threads.data.panicked=false then
      .next {s with sync := Function.update s.sync cpu (.polling c)}
    else .blocked
  | .poll cpu =>
    match s.sync cpu with
    | .polling c =>
      if s.threads.data.chip.fifo=[] then
        .next {s with sync := Function.update s.sync cpu (.seen c)}
      else .next s
    | _ => .blocked
  | .put cpu =>
    match s.sync cpu with
    | .seen c =>
      let d := s.threads.data
      .next {s.setData {d with chip := d.chip.write .direct c} with
        sync := Function.update s.sync cpu .idle
        written := s.written++[c]}
    | _ => .blocked
  | .panic => .next (s.setData {s.threads.data with panicked := true})

/-- `UART` after `init`, with nobody in it. -/
def boot : System where
  threads := ⟨⟨⟨fun _ => 0,0,0⟩,⟨[],[],[],false⟩,false,[]⟩,none,fun _ => .out .idle,fun _ => false⟩
  sync := fun _ => .idle
  written := []

/-- The bytes of one origin. -/
def bytesOf (origin : Origin) (bytes : List (Origin × UInt8)) : List UInt8 :=
  (bytes.filter fun b => b.1=origin).map Prod.snd

/-- The bytes of one origin that the chip has got. -/
def Chip.got (chip : Chip) (origin : Origin) : List UInt8 := bytesOf origin (chip.line++chip.fifo)

/-- The byte that `transmit` has taken from the ring and not yet written to the chip. -/
def carried : Option Pc → List UInt8
  | some (.notify c) => [c]
  | some (.send c) => [c]
  | _ => []

/-- A thread in `transmit` has seen that the chip is idle, and has not yet written to it. -/
def sighted : Option Pc → Bool
  | some .fetch => true
  | some (.notify _) => true
  | some (.send _) => true
  | _ => false

/-- The thread with the lock is in `transmit`. -/
def Transmits : Option Pc → Prop
  | some .test => True
  | some .fetch => True
  | some (.notify _) => True
  | some (.send _) => True
  | _ => False

/-- There is a reason to sleep while the ring is full. -/
def Full (_ : Unit) (d : Data) : Prop := d.uart.full=true

/-- Who has taken a byte owes a wake-up. -/
def Owes : Pc → Unit → Prop
  | .notify _,_ => True
  | _,_ => False

/-- No byte is lost and nobody waits in vain. -/
structure Delivers (s : System) : Prop where
  /-- The bytes of `putc` reach the chip in their order, each once; at most one is on its way and 32
  are in the ring. -/
  order : ∃ waiting : List UInt8,
    s.threads.data.accepted=
      s.threads.data.chip.got .buffered++carried s.threads.point++waiting ∧
    waiting.length≤uartBuf ∧ (s.threads.data.uart.wi=s.threads.data.uart.ri ↔ waiting=[]) ∧
    (s.threads.data.uart.full=true ↔ waiting.length=uartBuf)
  /-- So do the bytes of `putc_sync`. -/
  direct : s.threads.data.chip.got .direct=s.written
  /-- No byte is written to a full FIFO. -/
  lost : s.threads.data.chip.lost=[]
  /-- If bytes are in the ring, the chip sends or has an interrupt for a CPU, or `transmit` runs or
  is about to. -/
  flow : s.threads.data.chip.fifo=[] → s.threads.data.uart.wi≠s.threads.data.uart.ri →
    s.threads.data.chip.pending=true ∨ Transmits s.threads.point ∨
      ∃ p,s.threads.places p=.entering .test
  /-- A sleeper waits for a full ring, or will be woken. -/
  sleeps : ∀ p,(s.threads.places p).Sleeps () →
    s.threads.data.uart.full=true ∨ ∃ q,(s.threads.places q).Owes Owes () p

section Ring

variable {u : Uart} {bytes : List UInt8} {taken : ℕ} {c : UInt8}

/-- `UART_BUF` divides the range of the indices. -/
theorem slot_ofNat (n : ℕ) : (slot (UInt64.ofNat n)).val=n%uartBuf := by
  show (UInt64.ofNat n).toNat%uartBuf=_
  rw [UInt64.toNat_ofNat']
  exact Nat.mod_mod_of_dvd n (by decide)

/-- The ring holds the bytes of a list that are not taken. -/
structure Ring (u : Uart) (bytes : List UInt8) (taken : ℕ) : Prop where
  ri : u.ri=UInt64.ofNat taken
  wi : u.wi=UInt64.ofNat bytes.length
  le : taken≤bytes.length
  fits : bytes.length≤taken+uartBuf
  slots : ∀ k (hk : k < bytes.length),taken≤k → u.buf (slot (UInt64.ofNat k))=bytes[k]

theorem fits_index {n : ℕ} (h : n≤taken+uartBuf) : n≤taken+consoleBuf :=
  h.trans (Nat.add_le_add_left (by decide) taken)

theorem Ring.empty_iff (h : Ring u bytes taken) : u.wi=u.ri ↔ taken=bytes.length := by
  rw [h.ri,h.wi,eq_comm,index_inj h.le (fits_index h.fits)]

theorem Ring.full_iff (h : Ring u bytes taken) : u.full=true ↔ bytes.length=taken+uartBuf := by
  have hle := Nat.add_le_add_left (show uartBuf ≤ consoleBuf by decide) taken
  rw [Uart.full,h.ri,h.wi,decide_eq_true_eq,← UInt64.ofNat_add,
    index_inj h.fits (hle.trans (Nat.add_le_add_right h.le _))]

/-- A byte is put in where there is room. -/
theorem Ring.push (h : Ring u bytes taken) (hroom : ¬u.full=true) (c : UInt8) :
    Ring {u with buf := Function.update u.buf (slot u.wi) c, wi := u.wi+1} (bytes++[c]) taken := by
  have hlt : bytes.length < taken+uartBuf :=
    lt_of_le_of_ne h.fits fun e => hroom (h.full_iff.mpr e)
  refine ⟨h.ri,?_,?_,?_,fun k hk hle => ?_⟩
  · simp only [h.wi,List.length_append,List.length_singleton]
    exact index_succ _
  · simp only [List.length_append]
    exact Nat.le_add_right_of_le h.le
  · simpa using hlt
  · simp only [List.length_append,List.length_singleton] at hk
    simp only [h.wi]
    by_cases e : k=bytes.length
    · subst e
      rw [Function.update_self,List.getElem_concat_length rfl]
    · have hkb : k < bytes.length := by omega
      rw [List.getElem_append_left hkb,Function.update_of_ne,h.slots k hkb hle]
      intro hs
      have hs := congrArg Fin.val hs
      rw [slot_ofNat,slot_ofNat] at hs
      simp only [uartBuf] at hs hlt
      omega

/-- A byte is taken out. -/
theorem Ring.take (h : Ring u bytes taken) (hlt : taken < bytes.length) :
    Ring {u with ri := u.ri+1} bytes (taken+1) ∧ u.buf (slot u.ri)=bytes[taken] := by
  refine ⟨⟨?_,h.wi,hlt,?_,fun k hk hle => h.slots k hk (Nat.le_of_succ_le hle)⟩,?_⟩
  · simp only [h.ri]
    exact index_succ _
  · have hf := h.fits
    omega
  · rw [h.ri]
    exact h.slots taken hlt (Nat.le_refl _)

end Ring

@[simp] theorem bytesOf_nil (o : Origin) : bytesOf o []=[] := rfl

@[simp] theorem bytesOf_append (o : Origin) (l m : List (Origin × UInt8)) :
    bytesOf o (l++m)=bytesOf o l++bytesOf o m := by
  simp [bytesOf]

@[simp] theorem bytesOf_self (o : Origin) (c : UInt8) : bytesOf o [(o,c)]=[c] := by
  simp [bytesOf]

theorem bytesOf_other {o o' : Origin} (h : o'≠o) (c : UInt8) : bytesOf o [(o',c)]=[] := by
  simp [bytesOf,h]

/-- How many CPUs are about to write a byte after the loop of `putc_sync`. -/
def seeing (sync : ℕ → Sync) : ℕ := {c∈Finset.range ncpu | (sync c).sees=true}.card

/-- The bytes that were taken from the ring. -/
def passed (d : Data) (pt : Option Pc) : List UInt8 := d.chip.got .buffered++carried pt

/-- What holds of the data, of the point of the thread with the lock, and of `putc_sync`, given
whether a handler is about to enter. -/
structure Flows (d : Data) (pt : Option Pc) (sync : ℕ → Sync) (written : List UInt8)
    (handler : Prop) : Prop where
  ring : Ring d.uart d.accepted (passed d pt).length
  order : passed d pt <+: d.accepted
  /-- `transmit` takes a byte only if there is one. -/
  fetching : pt=some .fetch → (passed d pt).length < d.accepted.length
  /-- Whoever writes to the chip has seen it idle, once for each time that it got empty. -/
  room : d.chip.fifo.length+(sighted pt).toNat+seeing sync≤ncpu+1
  direct : d.chip.got .direct=written
  lost : d.chip.lost=[]
  flow : d.chip.fifo=[] → (passed d pt).length≠d.accepted.length →
    d.chip.pending=true ∨ Transmits pt ∨ handler

section Flow

variable {d d' : Data} {pt pt' : Option Pc} {sync : ℕ → Sync} {written : List UInt8}
  {handler handler' : Prop} {u : Pc}

theorem seeing_le (sync : ℕ → Sync) : seeing sync≤ncpu :=
  (Finset.card_filter_le _ _).trans (by rw [Finset.card_range])

/-- The point moves and nothing else changes. -/
theorem Flows.move (h : Flows d pt sync written handler) (hc : carried pt'=carried pt)
    (hf : pt'=some .fetch → (passed d pt').length < d.accepted.length)
    (hs : (sighted pt').toNat≤(sighted pt).toNat)
    (hflow : d.chip.fifo=[] → (passed d pt).length≠d.accepted.length →
      d.chip.pending=true ∨ Transmits pt' ∨ handler') :
    Flows d pt' sync written handler' := by
  have hp : passed d pt'=passed d pt := by rw [passed,passed,hc]
  refine ⟨?_,?_,hf,?_,h.direct,h.lost,?_⟩
  · rw [hp]
    exact h.ring
  · rw [hp]
    exact h.order
  · exact (Nat.add_le_add_right (Nat.add_le_add_left hs _) _).trans h.room
  · rw [hp]
    exact hflow

/-- Whoever is about to write to the chip finds room in the FIFO. -/
theorem Flows.fits (h : Flows d pt sync written handler) : d.chip.fifo.length < fifoSize :=
  (Nat.le_add_right_of_le (Nat.le_add_right_of_le (Nat.le_refl _))).trans_lt
    (h.room.trans_lt (by decide))

/-- A step of the thread with the lock. -/
theorem Flows.act (h : Flows d (some u) sync written handler) {killed : Bool}
    (hlead : (driver.next killed () u d).Leads d d' pt') : Flows d' pt' sync written handler := by
  have hring := h.ring
  cases u with
  | idle =>
    obtain ⟨rfl,rfl⟩ := hlead
    exact h.move rfl (fun e => by cases e) (Nat.le_refl _) h.flow
  | check c =>
    simp only [driver] at hlead
    split at hlead
    · obtain ⟨rfl,rfl⟩ := hlead
      exact h
    · obtain ⟨rfl,rfl⟩ := hlead
      exact h.move rfl (fun e => by cases e) (Nat.le_refl _) h.flow
  | room c =>
    simp only [driver] at hlead
    split at hlead
    · obtain ⟨rfl,rfl⟩ := hlead
      exact h.move rfl (fun e => by cases e) (Nat.le_refl _) h.flow
    · rename_i hroom
      obtain ⟨rfl,rfl⟩ := hlead
      exact {
        ring := hring.push hroom c
        order := h.order.trans (List.prefix_append _ _)
        fetching := fun e => by cases e
        room := h.room
        direct := h.direct
        lost := h.lost
        flow := fun _ _ => .inr (.inl trivial) }
  | test =>
    simp only [driver] at hlead
    split at hlead
    · rename_i hgo
      obtain ⟨rfl,rfl⟩ := hlead
      have hne := (not_congr hring.empty_iff).mp hgo.1
      have hseen := seeing_le sync
      refine ⟨hring,h.order,fun _ => lt_of_le_of_ne hring.le hne,?_,h.direct,h.lost,
        fun _ _ => .inr (.inl trivial)⟩
      rw [hgo.2]
      simp only [List.length_nil,sighted,Bool.toNat_true]
      omega
    · rename_i hstop
      obtain ⟨rfl,rfl⟩ := hlead
      refine h.move rfl (fun e => by cases e) (Nat.le_refl _) fun hidle hne => ?_
      exact absurd ⟨(not_congr hring.empty_iff).mpr hne,hidle⟩ hstop
  | fetch =>
    obtain ⟨rfl,rfl⟩ := hlead
    have hlt := h.fetching rfl
    obtain ⟨htake,hbyte⟩ := hring.take hlt
    have hsame : (passed d (some .fetch))=d.chip.got .buffered := by simp [passed,carried]
    obtain ⟨rest,hrest⟩ := h.order
    have hpass : passed {d with uart := {d.uart with ri := d.uart.ri+1}}
        (some (.notify (d.uart.buf (slot d.uart.ri))))=
        passed d (some .fetch)++[d.uart.buf (slot d.uart.ri)] := by
      simp [passed,carried]
    refine ⟨?_,?_,(fun e => by cases e),h.room,h.direct,h.lost,fun _ _ => .inr (.inl trivial)⟩
    · rw [hpass,List.length_append]
      exact htake
    · rw [hpass,hbyte]
      exact List.concat_get_prefix h.order hlt
  | notify c =>
    obtain ⟨rfl,rfl⟩ := hlead
    exact h.move rfl (fun e => by cases e) (Nat.le_refl _) fun _ _ => .inr (.inl trivial)
  | send c =>
    obtain ⟨rfl,rfl⟩ := hlead
    have hwrite : d.chip.write .buffered c=
        {d.chip with fifo := d.chip.fifo++[(.buffered,c)], pending := false} := if_pos h.fits
    have hpass : passed {d with chip := d.chip.write .buffered c} (some .test)=
        passed d (some (.send c)) := by
      simp [passed,carried,hwrite,Chip.got]
    refine ⟨?_,?_,(fun e => by cases e),?_,?_,?_,fun _ _ => .inr (.inl trivial)⟩
    · rw [hpass]
      exact hring
    · rw [hpass]
      exact h.order
    · have hr := h.room
      simp only [sighted,Bool.toNat_true] at hr
      simp only [hwrite,sighted,Bool.toNat_false,List.length_append,List.length_singleton]
      omega
    · have hd := h.direct
      simpa [hwrite,Chip.got,bytesOf_other] using hd
    · rw [hwrite]
      exact h.lost

/-- A handler that was about to enter has entered, or another is about to. -/
theorem Flows.weaken (h : Flows d pt sync written handler)
    (hh : handler → handler' ∨ Transmits pt) : Flows d pt sync written handler' := by
  refine ⟨h.ring,h.order,h.fetching,h.room,h.direct,h.lost,fun hidle hne => ?_⟩
  obtain hp | ht | hw := h.flow hidle hne
  · exact .inl hp
  · exact .inr (.inl ht)
  · obtain hw | ht := hh hw
    · exact .inr (.inr hw)
    · exact .inr (.inl ht)

/-- Threads enter in `putc` or in `transmit`. -/
def Enters : Pc → Prop
  | .check _ => True
  | .room _ => True
  | .test => True
  | _ => False

/-- A step of the threads. -/
theorem Flows.step {s t : Monitors.System Unit Data Pc}
    (h : Flows s.data s.point sync written handler) (hm : Moves driver Enters s t)
    (hh : handler → handler' ∨ Transmits t.point) :
    Flows t.data t.point sync written handler' := by
  cases hm with
  | same hdata hpoint =>
    rw [hpoint] at hh
    rw [hdata,hpoint]
    exact h.weaken hh
  | take u hdata hbefore hu hafter =>
    rw [hafter] at hh
    rw [hbefore] at h
    rw [hdata,hafter]
    have hplain : carried (some u)=[] ∧ sighted (some u)=false ∧ some u≠some .fetch := by
      cases u with
      | check c => exact ⟨rfl,rfl,by simp⟩
      | room c => exact ⟨rfl,rfl,by simp⟩
      | test => exact ⟨rfl,rfl,by simp⟩
      | _ => exact absurd hu id
    obtain ⟨hcarried,hsighted,hfetch⟩ := hplain
    refine h.move hcarried (fun e => absurd e hfetch) (by rw [hsighted]; exact Nat.le_refl _)
      fun hidle hne => ?_
    obtain hp | ht | hw := h.flow hidle hne
    · exact .inl hp
    · exact absurd ht id
    · exact (hh hw).elim (fun hw => .inr (.inr hw)) fun ht => .inr (.inl ht)
  | act killed x u hbefore hafter =>
    rw [hbefore] at h
    exact (h.act hafter).weaken hh

/-- The chip sends a byte. -/
theorem Flows.drain (h : Flows d pt sync written handler) {b : Origin × UInt8}
    {rest : List (Origin × UInt8)} (hf : d.chip.fifo=b::rest) :
    Flows {d with chip := {d.chip with
      fifo := rest
      line := d.chip.line++[b]
      pending := d.chip.pending || rest.isEmpty}} pt sync written handler := by
  have hgot : ∀ o,Chip.got {d.chip with
      fifo := rest
      line := d.chip.line++[b]
      pending := d.chip.pending || rest.isEmpty} o=d.chip.got o := by
    intro o
    simp only [Chip.got,hf,List.append_assoc,List.singleton_append]
  have hroom := h.room
  rw [hf,List.length_cons] at hroom
  refine ⟨?_,?_,?_,?_,?_,h.lost,?_⟩
  · simp only [passed,hgot]
    exact h.ring
  · simp only [passed,hgot]
    exact h.order
  · simp only [passed,hgot]
    exact h.fetching
  · dsimp only
    omega
  · rw [hgot]
    exact h.direct
  · intro hidle _
    dsimp only at hidle
    exact .inl (by simp [hidle])

/-- `PANICKED` is set. -/
theorem Flows.panic (h : Flows d pt sync written handler) :
    Flows {d with panicked := true} pt sync written handler :=
  ⟨h.ring,h.order,h.fetching,h.room,h.direct,h.lost,h.flow⟩

/-- A CPU claims the interrupt. -/
theorem Flows.claim (h : Flows d pt sync written handler) :
    Flows {d with chip := {d.chip with pending := false}} pt sync written True :=
  ⟨h.ring,h.order,h.fetching,h.room,h.direct,h.lost,fun _ _ => .inr (.inr trivial)⟩

/-- A CPU that is not about to write stays so. -/
theorem seeing_update {cpu : ℕ} {v : Sync} (hv : v.sees=(sync cpu).sees) :
    seeing (Function.update sync cpu v)=seeing sync := by
  refine congrArg Finset.card (Finset.filter_congr fun c _ => ?_)
  by_cases e : c=cpu
  · rw [e,Function.update_self,hv]
  · rw [Function.update_of_ne e]

/-- A CPU has written its byte. -/
theorem seeing_idle {cpu : ℕ} (hcpu : cpu < ncpu) (hsees : (sync cpu).sees=true) :
    seeing (Function.update sync cpu .idle)+1=seeing sync := by
  have hmem : cpu∈{c∈Finset.range ncpu | (sync c).sees=true} :=
    Finset.mem_filter.mpr ⟨Finset.mem_range.mpr hcpu,hsees⟩
  have herase : {c∈Finset.range ncpu | (Function.update sync cpu .idle c).sees=true}=
      {c∈Finset.range ncpu | (sync c).sees=true}.erase cpu := by
    ext c
    rw [Finset.mem_erase,Finset.mem_filter,Finset.mem_filter]
    by_cases e : c=cpu
    · simp [e,Sync.sees]
    · simp [e]
  rw [seeing,herase,Finset.card_erase_add_one hmem,seeing]

theorem cpus_update (h : ∀ c,sync c≠.idle → c < ncpu) {cpu : ℕ} (hcpu : cpu < ncpu) {v : Sync}
    (c : ℕ) (hc : Function.update sync cpu v c≠.idle) : c < ncpu := by
  by_cases e : c=cpu
  · exact e ▸ hcpu
  · exact h c (by rwa [Function.update_of_ne e] at hc)

/-- `putc_sync` sees that the chip is idle. -/
theorem Flows.poll (h : Flows d pt sync written handler) (hidle : d.chip.fifo=[])
    (sync' : ℕ → Sync) : Flows d pt sync' written handler := by
  refine ⟨h.ring,h.order,h.fetching,?_,h.direct,h.lost,h.flow⟩
  have hseen := seeing_le sync'
  have hone := Bool.toNat_le (sighted pt)
  rw [hidle,List.length_nil]
  omega

/-- `putc_sync` writes its byte. -/
theorem Flows.put (h : Flows d pt sync written handler) {cpu : ℕ} {c : UInt8} (hcpu : cpu < ncpu)
    (hsync : sync cpu=.seen c) :
    Flows {d with chip := d.chip.write .direct c} pt (Function.update sync cpu .idle)
      (written++[c]) handler := by
  have hwrite : d.chip.write .direct c=
      {d.chip with fifo := d.chip.fifo++[(.direct,c)], pending := false} := if_pos h.fits
  have hpass : passed {d with chip := d.chip.write .direct c} pt=passed d pt := by
    simp [passed,hwrite,Chip.got,bytesOf_other]
  have hseen := @seeing_idle sync cpu hcpu (by rw [hsync]; rfl)
  have hroom := h.room
  refine ⟨?_,?_,?_,?_,?_,?_,fun hidle => ?_⟩
  · rw [hpass]
    exact h.ring
  · rw [hpass]
    exact h.order
  · rw [hpass]
    exact h.fetching
  · simp only [hwrite,List.length_append,List.length_singleton]
    omega
  · have hd := h.direct
    simp only [Chip.got,bytesOf_append] at hd
    simp [hwrite,Chip.got,← hd]
  · rw [hwrite]
    exact h.lost
  · simp [hwrite] at hidle

end Flow

/-- What holds in every state. -/
structure Good (n : ℕ) (s : System) : Prop where
  inv : Inv Full Owes n s.threads
  enters : ∀ p,(s.threads.places p).EntersAt Enters
  cpus : ∀ c,s.sync c≠.idle → c < ncpu
  flows : Flows s.threads.data s.threads.point s.sync s.written
    (∃ p,s.threads.places p=.entering .test)

section System

variable {n : ℕ} {s t : System}

/-- The acts of `putc` and `transmit` are right. -/
theorem driver_pays (killed : Bool) (x : Unit) (u : Pc) (d : Data) :
    Pays Full Owes d u (driver.next killed x u d) := by
  cases u with
  | idle => exact fun _ ho => absurd ho id
  | check c =>
    simp only [driver]
    split
    · exact fun _ => id
    · exact fun _ h => .inl (h.resolve_right id)
  | room c =>
    simp only [driver]
    split
    · rename_i hfull
      exact ⟨hfull,fun _ ho => absurd ho id⟩
    · rename_i hroom
      exact fun _ h => absurd (h.resolve_right id) hroom
  | test =>
    simp only [driver]
    split
    · exact fun _ h => .inl (h.resolve_right id)
    · exact fun _ ho => absurd ho id
  | fetch => exact fun _ _ => .inr trivial
  | notify c => exact fun _ _ => .inl rfl
  | send c => exact fun _ h => .inl (h.resolve_right id)

theorem driver_enters (u t : Pc) (h : driver.enters u t=true) : Enters t := by
  cases t with
  | check c => trivial
  | test => trivial
  | _ => cases u <;> cases h

theorem driver_sleeps (killed : Bool) (x : Unit) (u : Pc) (d : Data) (c : Unit) (t : Pc)
    (h : driver.next killed x u d=.sleep c t) : Enters t := by
  cases u with
  | room b =>
    simp only [driver] at h
    split at h
    · cases h
      trivial
    · cases h
  | check b =>
    simp only [driver] at h
    split at h <;> cases h
  | test =>
    simp only [driver] at h
    split at h <;> cases h
  | _ => cases h

/-- The chip changes. -/
theorem inv_setData (h : Inv Full Owes n s.threads) {d : Data}
    (hd : d.uart=s.threads.data.uart) : Inv Full Owes n (s.setData d).threads := by
  have hfull : ∀ c,Full c d ↔ Full c s.threads.data := fun _ => by rw [Full,Full,hd]
  exact ⟨h.lock,h.bound,fun p c hp => (hfull c).mpr (h.parks p c hp),
    fun p c hp => (h.sleeps p c hp).imp_left (hfull c).mpr⟩

/-- A step of the threads. -/
theorem Good.onThreads {handler : Prop} {a : Label Pc Unit} (hinv : Inv Full Owes n s.threads)
    (henters : ∀ p,(s.threads.places p).EntersAt Enters) (hcpus : ∀ c,s.sync c≠.idle → c < ncpu)
    (hflows : Flows s.threads.data s.threads.point s.sync s.written handler)
    (hh : handler → (∃ p,t.threads.places p=.entering .test) ∨ Transmits t.threads.point)
    (ht : s.onThreads n a=.next t) : Good n t := by
  obtain ⟨m,hm,hnext⟩ := Outcome.bind_eq_next ht
  cases hnext
  exact {
    inv := hinv.step (fun _ x u _ _ => driver_pays _ x u _) hm
    enters := step_entersAt henters driver_enters driver_sleeps hm
    cpus := hcpus
    flows := hflows.step (step_moves hinv henters hm) hh }

/-- Every step is good. -/
theorem Good.step {a : Action} (h : Good n s) (ht : UartOutput.step n s a=.next t) : Good n t := by
  cases a with
  | code a =>
    refine Good.onThreads h.inv h.enters h.cpus h.flows (fun ⟨p,hp⟩ => ?_) ht
    obtain ⟨m,hm,hnext⟩ := Outcome.bind_eq_next ht
    cases hnext
    refine (step_entering hp hm).imp (fun hp => ⟨p,hp⟩) fun hp => ?_
    rw [hp]
    trivial
  | claim p =>
    have hinv := @inv_setData n s h.inv
      {s.threads.data with chip := {s.threads.data.chip with pending := false}} rfl
    refine Good.onThreads hinv h.enters h.cpus h.flows.claim (fun _ => .inl ⟨p,?_⟩) ht
    obtain ⟨m,hm,hnext⟩ := Outcome.bind_eq_next ht
    cases hnext
    cases step_change hm with
    | call hp hn he => exact Function.update_self ..
  | drain =>
    simp only [UartOutput.step] at ht
    split at ht
    · cases ht
    · rename_i b rest hf
      cases ht
      exact ⟨inv_setData h.inv rfl,h.enters,h.cpus,h.flows.drain hf⟩
  | sync cpu c =>
    rw [UartOutput.step] at ht
    split at ht
    · rename_i hc
      cases ht
      have hf := h.flows
      have hsame := @seeing_update s.sync cpu (.polling c) (by rw [hc.2.1]; rfl)
      exact ⟨h.inv,h.enters,cpus_update h.cpus hc.1,
        ⟨hf.ring,hf.order,hf.fetching,hsame.symm ▸ hf.room,hf.direct,hf.lost,hf.flow⟩⟩
    · cases ht
  | poll cpu =>
    simp only [UartOutput.step] at ht
    split at ht
    · rename_i c hc
      split at ht
      · rename_i hidle
        cases ht
        have hcpu := h.cpus cpu (by simp [hc])
        exact ⟨h.inv,h.enters,cpus_update h.cpus hcpu,h.flows.poll hidle _⟩
      · cases ht
        exact h
    · cases ht
  | put cpu =>
    simp only [UartOutput.step] at ht
    split at ht
    · rename_i c hc
      cases ht
      have hcpu := h.cpus cpu (by simp [hc])
      exact ⟨inv_setData h.inv rfl,h.enters,cpus_update h.cpus hcpu,h.flows.put hcpu hc⟩
    · cases ht
  | panic =>
    cases ht
    exact ⟨inv_setData h.inv rfl,h.enters,h.cpus,h.flows.panic⟩

theorem boot_good (n : ℕ) : Good n boot where
  inv := Inv.start
  enters _ := trivial
  cpus c hc := absurd rfl hc
  flows := {
    ring := ⟨rfl,rfl,Nat.le_refl _,Nat.zero_le _,fun k hk => absurd hk (Nat.not_lt_zero k)⟩
    order := List.nil_prefix
    fetching := fun e => by cases e
    room := by decide
    direct := rfl
    lost := rfl
    flow := fun _ hne => absurd rfl hne }

theorem Good.delivers (h : Good n s) : Delivers s := by
  have hf := h.flows
  obtain ⟨waiting,hw⟩ := hf.order
  have hring := hf.ring
  rw [← hw] at hring
  have hfits := hring.fits
  rw [List.length_append] at hfits
  refine ⟨⟨waiting,hw.symm,by omega,?_,?_⟩,hf.direct,hf.lost,fun hidle hne => ?_,fun p hp => ?_⟩
  · rw [hring.empty_iff,List.length_append,← List.length_eq_zero_iff]
    omega
  · rw [hring.full_iff,List.length_append]
    omega
  · exact hf.flow hidle ((not_congr hf.ring.empty_iff).mp hne)
  · exact h.inv.sleeps p () hp

end System

/-- In every run of `putc` by any processes, of interrupt handlers, of `putc_sync` on any CPU and of
the chip: bytes reach the chip in the order in which `putc` takes them on, none is lost, doubled
or written to a full FIFO, a ring with bytes in it is never forgotten, and who sleeps waits for
a full ring or is about to be woken. -/
theorem uart_delivers {n : ℕ} {as : List Action} {s : System}
    (hr : run (step n) boot as=.next s) : Delivers s := by
  have hstep : ∀ s a t,Good n s → True → step n s a=.next t → Good n t :=
    fun _ _ _ h _ ht => h.step ht
  exact (run_invariant hstep (boot_good n) (guarded_of_forall (fun _ _ => trivial) _ _) hr).delivers

/-- `n` acts of a thread. -/
def acts (p n : ℕ) : List Action := List.replicate n (.code (.act p ()))

/-- `wakeup` of a thread looks at two entries. -/
def wakes (p : ℕ) : List Action := List.replicate 3 (.code (.wake p))

/-- A process puts a byte, `putc_sync` waits for the chip with another, and the handler runs. -/
def twoBytes : List Action :=
  .code (.call 0 (.check 65))::.code (.take 0)::acts 0 5++wakes 0++acts 0 2++
    .sync 1 66::.poll 1::.drain::.poll 1::.claim 1::.put 1::.code (.take 1)::acts 1 1++[.drain]

theorem uart_delivers_twoBytes :
    ∃ s,run (step 2) boot twoBytes=.next s ∧ Delivers s ∧
      s.threads.data.chip.line=[(.buffered,65),(.direct,66)] := by
  have htest : (run (step 2) boot twoBytes).test
      (fun s => s.threads.data.chip.line=[(.buffered,65),(.direct,66)])=true := by decide +kernel
  obtain ⟨s,hr,hline⟩ := Outcome.exists_of_test htest
  exact ⟨s,hr,uart_delivers hr,of_decide_eq_true hline⟩

end Xv6Rust.UartOutput
