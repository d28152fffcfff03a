import DcpuToolchain.Hw.Devices
import Mathlib.Data.Fin.VecNotation

/-!
# The states of the disk drive

The drive over any sequence of requests and ticks: what its state says about a request that
waits for its transfer (`M35fd.Consistent`), and with which message it raises interrupts.

Each change of the state and each error raises an interrupt with the message of the guest, if
there is one. A poll should leave that message alone, but it runs into the request that sets
it. The interrupts are as they should be exactly if no change or error comes while the last
poll has left another message (`DcpuToolchain.raisesAsked_iff`).
-/

namespace DcpuToolchain

/-! ### Runs -/

/-- What the drive is called for. -/
inductive DriveEvent
  | request (r : Registers)
  | tick

namespace M35fd

/-- `vm_hw_m35fd_init`, where `vm_hw_m35fd_load_disk` finds a disk or not. -/
def init (disk : Bool) : M35fd where
  disk := disk
  state := if disk then ready else noMedia

theorem init_eq (disk hosted : Bool) : (Devices.init disk hosted).m35fd = init disk := rfl

/-- What the drive does. -/
def step (hw : M35fd) : DriveEvent → M35fd
  | .request r => (hw.interrupt r).1
  | .tick => hw.cycle.1

/-- The drive after a sequence of requests and ticks. -/
def run (hw : M35fd) (events : List DriveEvent) : M35fd := events.foldl step hw

/-- A `READ` or `WRITE` request that is accepted: the guest finds a one in `B`. -/
def Accepts (hw : M35fd) (r : Registers) : Prop :=
  (r 0 = 2 ∨ r 0 = 3) ∧ (hw.interrupt r).2 1 = 1

/-! ### The state and the request that waits -/

/-- What the state says: the drive is busy exactly with a request, and has no media exactly
without a disk. Without a request, there is no sector. -/
structure Consistent (hw : M35fd) : Prop where
  busy_iff : hw.state = busy ↔ hw.reading ≠ hw.writing
  noMedia_iff : hw.state = noMedia ↔ hw.disk = false
  one : ¬ (hw.reading = true ∧ hw.writing = true)
  idle : hw.state ≠ busy → hw.sector = 0

variable {hw : M35fd}

/-- Without a request, nothing is read or written. -/
theorem Consistent.of_not_busy (h : hw.Consistent) (hbusy : hw.state ≠ busy) :
    hw.reading = false ∧ hw.writing = false := by
  have hsame : hw.reading = hw.writing := not_not.mp (mt h.busy_iff.mpr hbusy)
  have hone := h.one
  rw [← hsame] at hone ⊢
  rw [and_self, Bool.not_eq_true] at hone
  exact ⟨hone, hone⟩

/-- A busy drive has a disk. -/
theorem Consistent.disk_of_busy (h : hw.Consistent) (hbusy : hw.state = busy) :
    hw.disk = true := by
  have hmedia : hw.state ≠ noMedia := by
    rw [hbusy]
    decide
  exact Bool.not_eq_false _ ▸ mt h.noMedia_iff.mpr hmedia

/-- A drive without a disk is not ready. -/
theorem Consistent.not_ready (h : hw.Consistent) :
    ¬ (hw.disk = false ∧ (hw.state = readyWp ∨ hw.state = ready)) := by
  rw [← h.noMedia_iff]
  rintro ⟨hstate, hready | hready⟩ <;> rw [hstate] at hready <;> cases hready

/-- A drive without a disk has no request. -/
theorem Consistent.not_requested (h : hw.Consistent) :
    ¬ (hw.state = noMedia ∧ (hw.reading = true ∨ hw.writing = true)) := by
  rintro ⟨hstate, hrequested⟩
  obtain ⟨hreading, hwriting⟩ := h.of_not_busy (by rw [hstate]; decide)
  rw [hreading, hwriting] at hrequested
  rcases hrequested with hfalse | hfalse <;> cases hfalse

theorem Consistent.checked_eq (h : hw.Consistent) :
    hw.checked = if 1440 < hw.sector then hw.resetState else hw := by
  rw [checked, if_neg h.not_ready]

theorem Consistent.not_lt_sector (h : hw.Consistent) (hbusy : hw.state ≠ busy) :
    ¬ 1440 < hw.sector := by
  rw [h.idle hbusy]
  decide

theorem init_consistent (disk : Bool) : (init disk).Consistent := by
  cases disk <;> exact ⟨by decide, by decide, by decide, fun _ => rfl⟩

/-- **What a request does to the state**: it is accepted, or only the error and the message
change. -/
theorem interrupt_cases (hw : M35fd) (r : Registers) :
    (hw.Accepts r ∧ (hw.state = ready ∨ hw.state = readyWp) ∧ hw.reading = false ∧
      hw.writing = false ∧
      (hw.interrupt r).1 = { hw with
        reading := r 0 = 2, writing := r 0 = 3, sector := r 3, position := r 4, state := busy }) ∨
    (¬ hw.Accepts r ∧ ∃ error msg,
      (hw.interrupt r).1 = { hw with lastError := error, interruptMsg := msg }) := by
  unfold Accepts interrupt
  by_cases h0 : r 0 = 0
  · rw [if_pos h0]
    refine .inr ⟨fun h => ?_, _, _, rfl⟩
    rw [h0] at h
    revert h
    rintro ⟨h | h, -⟩ <;> cases h
  · rw [if_neg h0]
    by_cases h1 : r 0 = 1
    · rw [if_pos h1]
      refine .inr ⟨fun h => ?_, _, _, rfl⟩
      rw [h1] at h
      revert h
      rintro ⟨h | h, -⟩ <;> cases h
    · rw [if_neg h1]
      by_cases h2 : r 0 = 2
      · rw [if_pos h2]
        split
        · rename_i hready
          refine .inl ⟨⟨.inl h2, by simp⟩, hready.1, hready.2.1, hready.2.2, ?_⟩
          simp [h2, hready.2.2]
        · refine .inr ⟨fun h => ?_, 1, hw.interruptMsg, rfl⟩
          simp at h
      · rw [if_neg h2]
        by_cases h3 : r 0 = 3
        · rw [if_pos h3]
          split
          · rename_i hready
            refine .inl ⟨⟨.inr h3, by simp⟩, .inl hready.1, hready.2.1, hready.2.2, ?_⟩
            simp [h3, hready.2.1]
          · refine .inr ⟨fun h => ?_, 1, hw.interruptMsg, rfl⟩
            simp at h
        · rw [if_neg h3]
          exact .inr ⟨fun h => h.1.elim h2 h3, hw.lastError, hw.interruptMsg, rfl⟩

theorem Consistent.interrupt (h : hw.Consistent) (r : Registers) :
    (hw.interrupt r).1.Consistent := by
  rcases hw.interrupt_cases r with ⟨haccepts, hready, -, -, heq⟩ | ⟨-, error, msg, heq⟩
  · have hmedia : hw.disk ≠ false := by
      rw [Ne, ← h.noMedia_iff]
      rcases hready with hstate | hstate <;> rw [hstate] <;> decide
    rw [heq]
    refine ⟨iff_of_true rfl ?_, iff_of_false nofun hmedia, ?_, fun hbusy => absurd rfl hbusy⟩
    · rcases haccepts.1 with hr | hr <;> simp [hr]
    · rcases haccepts.1 with hr | hr <;> simp [hr]
  · rw [heq]
    exact ⟨h.busy_iff, h.noMedia_iff, h.one, h.idle⟩

/-- What the drive is after a transfer. -/
theorem resetState_idle (hw : M35fd) :
    hw.resetState.reading = false ∧ hw.resetState.writing = false ∧ hw.resetState.sector = 0 ∧
      (hw.resetState.state = ready ∨ hw.resetState.state = readyWp) := by
  refine ⟨rfl, rfl, rfl, ?_⟩
  rw [resetState]
  dsimp only
  split
  · exact .inr rfl
  · exact .inl rfl

/-- **What a tick does to a busy drive**: whatever the sector, the request is over. -/
theorem Consistent.cycle_busy (h : hw.Consistent) (hbusy : hw.state = busy) :
    hw.cycle.1 = hw.resetState := by
  have hpending := h.busy_iff.mp hbusy
  rw [cycle, if_neg h.not_requested, h.checked_eq]
  split
  · -- there is no such sector
    rfl
  · cases hreading : hw.reading
    · have hwriting : hw.writing = true := by
        rw [hreading] at hpending
        exact Bool.eq_true_of_not_eq_false fun hfalse => hpending hfalse.symm
      simp [hreading, hwriting]
    · simp [hreading, resetState]

/-- **A tick leaves a drive alone that is not busy**. -/
theorem Consistent.cycle_idle (h : hw.Consistent) (hbusy : hw.state ≠ busy) :
    hw.cycle = (hw, []) := by
  obtain ⟨hreading, hwriting⟩ := h.of_not_busy hbusy
  rw [cycle, if_neg h.not_requested, h.checked_eq, if_neg (h.not_lt_sector hbusy)]
  simp [hreading, hwriting]

theorem Consistent.cycle (h : hw.Consistent) : hw.cycle.1.Consistent := by
  by_cases hbusy : hw.state = busy
  · obtain ⟨hreading, hwriting, hsector, hready⟩ := hw.resetState_idle
    rw [h.cycle_busy hbusy]
    refine ⟨iff_of_false ?_ ?_, iff_of_false ?_ ?_, ?_, fun _ => hsector⟩
    · rcases hready with hstate | hstate <;> rw [hstate] <;> decide
    · rw [hreading, hwriting]
      exact fun hne => hne rfl
    · rcases hready with hstate | hstate <;> rw [hstate] <;> decide
    · have hdisk : hw.resetState.disk = hw.disk := rfl
      rw [hdisk, h.disk_of_busy hbusy]
      exact Bool.noConfusion
    · rw [hreading]
      exact fun hand => Bool.noConfusion hand.1
  · rw [h.cycle_idle hbusy]
    exact h

theorem Consistent.step (h : hw.Consistent) (e : DriveEvent) : (hw.step e).Consistent := by
  cases e with
  | request r => exact h.interrupt r
  | tick => exact h.cycle

theorem Consistent.run (h : hw.Consistent) (events : List DriveEvent) :
    (hw.run events).Consistent := by
  induction events generalizing hw with
  | nil => exact h
  | cons e events ih => exact ih (h.step e)

/-- A busy drive refuses all requests: what waits stays. -/
theorem busy_interrupt (hbusy : hw.state = busy) (r : Registers) :
    ∃ error msg, (hw.interrupt r).1 = { hw with lastError := error, interruptMsg := msg } := by
  rcases hw.interrupt_cases r with ⟨-, hready, -⟩ | ⟨-, hsame⟩
  · rw [hbusy] at hready
    rcases hready with hstate | hstate <;> cases hstate
  · exact hsame

/-- Requests do not change what waits. -/
theorem Consistent.busy_requests (h : hw.Consistent) (hbusy : hw.state = busy)
    (rs : List Registers) :
    ∃ error msg, hw.run (rs.map .request) =
      { hw with lastError := error, interruptMsg := msg } := by
  induction rs generalizing hw with
  | nil => exact ⟨hw.lastError, hw.interruptMsg, rfl⟩
  | cons r rs ih =>
    obtain ⟨error, msg, heq⟩ := busy_interrupt hbusy r
    have hnext := h.interrupt r
    rw [heq] at hnext
    obtain ⟨error', msg', hrest⟩ := ih hnext hbusy
    refine ⟨error', msg', ?_⟩
    calc hw.run ((r :: rs).map .request) = (hw.interrupt r).1.run (rs.map .request) := rfl
      _ = _ := by rw [heq, hrest]

end M35fd

/-- **The state of the drive over all runs**: it is busy exactly when one of reading and writing
is set, it has no media exactly without a disk, and a request that is accepted is over after
the next tick, whatever the guest requests until then. -/
theorem drive_states (disk : Bool) (events : List DriveEvent) :
    let hw := (M35fd.init disk).run events
    (hw.state = M35fd.busy ↔ hw.reading ≠ hw.writing) ∧
    (hw.state = M35fd.noMedia ↔ hw.disk = false) ∧
    ∀ r, hw.Accepts r → ∀ rs : List Registers,
      let hw' := hw.run (.request r :: rs.map .request ++ [.tick])
      hw'.state = M35fd.ready ∨ hw'.state = M35fd.readyWp := by
  intro hw
  have hconsistent : hw.Consistent := (M35fd.init_consistent disk).run events
  refine ⟨hconsistent.busy_iff, hconsistent.noMedia_iff, fun r hr rs => ?_⟩
  intro hw'
  rcases hw.interrupt_cases r with ⟨-, -, -, -, heq⟩ | ⟨hrefused, -⟩
  · have hbusy : (hw.interrupt r).1.state = M35fd.busy := by rw [heq]
    have hnext := hconsistent.interrupt r
    obtain ⟨error, msg, hwaits⟩ := hnext.busy_requests hbusy rs
    have hstill : ((hw.interrupt r).1.run (rs.map .request)).Consistent := hnext.run _
    have hresult : hw' = ((hw.interrupt r).1.run (rs.map .request)).cycle.1 := by
      show hw.run _ = _
      rw [M35fd.run, List.foldl_append]
      rfl
    rw [hresult, hstill.cycle_busy (by rw [hwaits]; exact hbusy)]
    exact (M35fd.resetState_idle _).2.2.2
  · exact absurd hr hrefused

/-- A `READ` of sector 7, a poll and a tick. -/
theorem drive_states_read :
    let hw := M35fd.init true
    let hw' := hw.run (.request ![2, 0, 0, 7, 0, 0, 0, 0] ::
      [![0, 0, 0, 0, 0, 0, 0, 0]].map .request ++ [.tick])
    hw'.state = M35fd.ready ∨ hw'.state = M35fd.readyWp :=
  (drive_states true []).2.2 _ ⟨.inl rfl, by decide⟩ _

/-! ### Interrupts -/

namespace M35fd

/-- The interrupts of a call of `vm_hw_m35fd_set_state` or `vm_hw_m35fd_set_error`. -/
def notify (hw : M35fd) : List Word := if hw.interruptMsg ≠ 0 then [hw.interruptMsg] else []

/-- The interrupts of `vm_hw_m35fd_interrupt`: a request that is accepted sets the state, and one
that is not sets the error. -/
def interruptRaised (hw : M35fd) (r : Registers) : List Word :=
  if r 0 = 2 ∨ r 0 = 3 then hw.notify else []

/-- The interrupts of the checks in `vm_hw_m35fd_cycle`. -/
def checkedRaised (hw : M35fd) : List Word :=
  let ejected : Prop := hw.disk = false ∧ (hw.state = readyWp ∨ hw.state = ready)
  (if ejected then hw.notify ++ hw.notify else []) ++
    if 1440 < (if ejected then hw.resetState else hw).sector then hw.notify else []

/-- The interrupts of `vm_hw_m35fd_cycle`. -/
def cycleRaised (hw : M35fd) : List Word :=
  if hw.state = noMedia ∧ (hw.reading = true ∨ hw.writing = true) then hw.notify ++ hw.notify
  else
    let checked := hw.checked
    let read := if checked.reading then checked.resetState else checked
    hw.checkedRaised ++ (if checked.reading then checked.notify else []) ++
      if read.writing then read.notify else []

/-- The interrupts that the drive raises. -/
def raised (hw : M35fd) : DriveEvent → List Word
  | .request r => hw.interruptRaised r
  | .tick => hw.cycleRaised

/-- The drive changes its state or reports an error: for `READ` and `WRITE` requests, and for
ticks where it is busy. -/
def Notifies (hw : M35fd) : DriveEvent → Prop
  | .request r => r 0 = 2 ∨ r 0 = 3
  | .tick => hw.state = busy

instance (hw : M35fd) (e : DriveEvent) : Decidable (hw.Notifies e) := by
  cases e <;> unfold Notifies <;> infer_instance

/-- **What is raised**: one interrupt for each change and each error. -/
theorem Consistent.raised_eq {hw : M35fd} (h : hw.Consistent) (e : DriveEvent) :
    hw.raised e = if hw.Notifies e then hw.notify else [] := by
  cases e with
  | request r => rfl
  | tick =>
    rw [raised, cycleRaised, checkedRaised, h.checked_eq, if_neg h.not_requested]
    simp only [h.not_ready, if_false, List.nil_append]
    by_cases hbusy : hw.state = busy
    · have hone := h.one
      have hpending := h.busy_iff.mp hbusy
      rw [if_pos (show hw.Notifies .tick from hbusy)]
      split
      · simp [resetState]
      · cases hreading : hw.reading <;> cases hwriting : hw.writing <;>
          simp_all [resetState, notify]
    · obtain ⟨hreading, hwriting⟩ := h.of_not_busy hbusy
      have hsector := h.not_lt_sector hbusy
      rw [if_neg (show ¬ hw.Notifies .tick from hbusy), if_neg hsector, if_neg hsector]
      simp [hreading, hwriting]

/-! ### The message -/

/-- The message of the most recent request that sets it. -/
def asked (msg : Word) : DriveEvent → Word
  | .request r => if r 0 = 1 then r 3 else msg
  | .tick => msg

/-- What is in `X` at the most recent request that sets the message or polls. -/
def polled (msg : Word) : DriveEvent → Word
  | .request r => if r 0 = 0 ∨ r 0 = 1 then r 3 else msg
  | .tick => msg

/-- A poll leaves its `X` as the message. -/
theorem Consistent.interruptMsg_step {hw : M35fd} (h : hw.Consistent) (e : DriveEvent) :
    (hw.step e).interruptMsg = polled hw.interruptMsg e := by
  cases e with
  | request r =>
    rw [M35fd.step, polled, M35fd.interrupt]
    split
    · rename_i h0
      rw [if_pos (.inl h0)]
    · rename_i h0
      split
      · rename_i h1
        rw [if_pos (.inr h1)]
      · rename_i h1
        have hother : ¬ (r 0 = 0 ∨ r 0 = 1) := fun hor => hor.elim h0 h1
        rw [if_neg hother]
        repeat' split
        all_goals rfl
  | tick =>
    rw [M35fd.step, polled]
    by_cases hbusy : hw.state = busy
    · rw [h.cycle_busy hbusy]
      rfl
    · rw [h.cycle_idle hbusy]

/-- Each change of the state and each error raises an interrupt with the message that the guest
has asked for, if it has. -/
def RaisesAsked : M35fd → (msg : Word) → List DriveEvent → Prop
  | _, _, [] => True
  | hw, msg, e :: events =>
    hw.raised e = (if hw.Notifies e ∧ msg ≠ 0 then [msg] else []) ∧
      RaisesAsked (hw.step e) (asked msg e) events

/-- **No poll is in the way**: whenever the drive changes its state or reports an error, the
message of the most recent request that sets it is also what was in `X` at the most recent
request that sets it or polls. -/
def Undisturbed : M35fd → (msg left : Word) → List DriveEvent → Prop
  | _, _, _, [] => True
  | hw, msg, left, e :: events =>
    (hw.Notifies e → left = msg) ∧
      Undisturbed (hw.step e) (asked msg e) (polled left e) events

theorem Consistent.asked_iff {hw : M35fd} (h : hw.Consistent) (msg : Word)
    (events : List DriveEvent) :
    hw.RaisesAsked msg events ↔ hw.Undisturbed msg hw.interruptMsg events := by
  induction events generalizing hw msg with
  | nil => exact Iff.rfl
  | cons e events ih =>
    have hrest := ih (h.step e) (asked msg e)
    rw [h.interruptMsg_step] at hrest
    refine and_congr ?_ hrest
    rw [h.raised_eq]
    by_cases hnotifies : hw.Notifies e
    · have hasked : (if hw.Notifies e ∧ msg ≠ 0 then [msg] else []) =
          if msg ≠ 0 then [msg] else [] := by
        simp only [hnotifies, true_and]
      have hsame : ∀ a b : Word,
          ((if a ≠ 0 then [a] else []) = if b ≠ 0 then [b] else []) ↔ a = b := by
        intro a b
        by_cases ha : a = 0
        · rw [if_neg (not_not.mpr ha), ha]
          by_cases hb : b = 0
          · rw [if_neg (not_not.mpr hb), hb]
            exact iff_of_true rfl rfl
          · rw [if_pos hb]
            exact iff_of_false nofun fun heq => hb heq.symm
        · rw [if_pos ha]
          by_cases hb : b = 0
          · rw [if_neg (not_not.mpr hb), hb]
            exact iff_of_false nofun ha
          · rw [if_pos hb, List.singleton_inj]
      rw [if_pos hnotifies, notify, hasked, hsame]
      exact (imp_iff_right hnotifies).symm
    · rw [if_neg hnotifies, if_neg fun hand => hnotifies hand.1]
      exact iff_of_true rfl fun hyes => absurd hyes hnotifies

end M35fd

/-- **Which runs raise the interrupts that the guest has asked for**: those in which no poll is
in the way. -/
theorem raisesAsked_iff (disk : Bool) (events : List DriveEvent) :
    (M35fd.init disk).RaisesAsked 0 events ↔ (M35fd.init disk).Undisturbed 0 0 events := by
  have hmsg : (M35fd.init disk).interruptMsg = 0 := rfl
  have h := (M35fd.init_consistent disk).asked_iff 0 events
  rwa [hmsg] at h

/-- The message is 5, a poll with 9 in `X` comes, and a `READ` raises 9. -/
theorem not_forall_raisesAsked :
    ¬ ∀ (disk : Bool) (events : List DriveEvent), (M35fd.init disk).RaisesAsked 0 events := by
  intro h
  have hevents := (h true [.request ![1, 0, 0, 5, 0, 0, 0, 0], .request ![0, 0, 0, 9, 0, 0, 0, 0],
    .request ![2, 0, 0, 0, 0, 0, 0, 0]]).2.2.1
  revert hevents
  decide +kernel

end DcpuToolchain
