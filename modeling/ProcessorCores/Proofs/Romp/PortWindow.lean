import ProcessorCores.Proofs.Romp.Return
import ProcessorCores.Proofs.Romp.Runs

/-!
# The window of the ROMP ports

A port is a word of I/O space, read and written as two halfwords. Nothing but an input or output
instruction touches that space, and one whose port is at or beyond the limit of the window is stopped by
a program check before it does.

The limit is compared with the address of the first byte alone. The last three ports below the limit
reach past it with their other bytes, and an access to one of them is carried out. These are the only
accesses that leave the window.
-/

namespace ProcessorCores

/-- The byte addresses that an access covers. -/
def Access.covered (access : Access) : List Word :=
  match access.datum with
  | .byte _ => [access.address]
  | .half _ => [access.address, access.address + 1]

/-- The byte addresses in a space that its accesses have covered, those of the latest first. -/
def Bus.covered (bus : Bus) (space : Space) : List Word :=
  (bus.accesses space).flatMap Access.covered

namespace Romp

/-- The byte addresses of a port in the order in which its accesses are found: the second halfword is
the later one. -/
def portBytes (port : Word) : List Word := [port + 2, port + 3, port, port + 1]

/-- The ports whose first byte alone is in the window. -/
def straddlingPorts : List Word := [0x00FFFFFD, 0x00FFFFFE, 0x00FFFFFF]

/-- A port reaches past the limit exactly when it is at or beyond it, or straddles it. -/
theorem reaches_limit_iff (port : Word) :
    (∃ address ∈ portBytes port, portLimit ≤ address) ↔
      portLimit ≤ port ∨ port ∈ straddlingPorts := by
  simp only [portBytes, straddlingPorts, portLimit, List.mem_cons, List.not_mem_nil, or_false,
    exists_eq_or_imp, exists_eq_left]
  bv_omega

/-- A port that straddles the limit is itself below it. -/
theorem lt_limit_of_straddling {port : Word} (h : port ∈ straddlingPorts) : port < portLimit := by
  simp only [straddlingPorts, List.mem_cons, List.not_mem_nil, or_false] at h
  obtain rfl | rfl | rfl := h <;> decide

namespace Machine

/-! ## Accesses of a step -/

/-- A program check accesses no port. -/
theorem programCheck_ports (machine : Machine) (status : Word) :
    (machine.programCheck status).bus.accesses .io = machine.bus.accesses .io := by
  rw [programCheck_eq, enter_ports]
  exact (machine.noteCheck_noted _ _ _).ports

/-- A multiple load accesses no port. -/
theorem loadRegisters_ports (machine : Machine) (r : Reg) (address : Word) (count : Nat) :
    (machine.loadRegisters r address count).bus.accesses .io = machine.bus.accesses .io := by
  induction count generalizing machine r address with
  | zero => rfl
  | succ count ih => exact (ih _ _ _).trans (Bus.accesses_read32_of_ne _ _ (by decide))

/-- A multiple store accesses no port. -/
theorem storeRegisters_ports (machine : Machine) (r : Reg) (address : Word) (count : Nat) :
    (machine.storeRegisters r address count).bus.accesses .io = machine.bus.accesses .io := by
  induction count generalizing machine r address with
  | zero => rfl
  | succ count ih => exact (ih _ _ _).trans (Bus.accesses_write32_of_ne _ _ _ (by decide))

/-- Every operation but those of input and output leaves the ports alone. -/
theorem execute_ports (machine : Machine) {op : Op} (instruction : Instruction) (next : Word)
    (hport : ∀ port, op ≠ .port port) :
    (machine.execute op instruction next).1.bus.accesses .io = machine.bus.accesses .io := by
  have hprogram : Space.program ≠ Space.io := by decide
  cases op with
  | compute op => rfl
  | load op =>
    cases op with
    | lcs | lc => exact Bus.accesses_record_of_ne _ hprogram
    | lhas | lha | lhs | lh => exact Bus.accesses_read16_of_ne _ _ hprogram
    | ls | l => exact Bus.accesses_read32_of_ne _ _ hprogram
  | store op =>
    cases op with
    | stcs | stc => exact Bus.accesses_record_of_ne _ hprogram
    | sths | sth => exact Bus.accesses_write16_of_ne _ _ _ hprogram
    | sts | st => exact Bus.accesses_write32_of_ne _ _ _ hprogram
  | tsh =>
    exact (Bus.accesses_record_of_ne _ hprogram).trans (Bus.accesses_read16_of_ne _ _ hprogram)
  | lm => exact machine.loadRegisters_ports _ _ _
  | stm => exact machine.storeRegisters_ports _ _ _
  | port op => exact absurd rfl (hport op)
  | trap op =>
    simp only [execute]
    split
    · exact machine.programCheck_ports _
    · rfl
  | branch op => rfl
  | control op => rfl
  | svc => exact machine.enter_ports _
  | lps =>
    exact (Bus.accesses_read16_of_ne _ _ hprogram).trans
      ((Bus.accesses_read16_of_ne _ _ hprogram).trans (Bus.accesses_read32_of_ne _ _ hprogram))
  | illegal => exact machine.programCheck_ports _

/-- A port in the window is accessed as two halfwords, and one outside it not at all. -/
theorem accessPort_covered (machine : Machine) (op : PortOp) (instruction : Instruction) :
    (machine.accessPort op instruction).bus.covered .io =
      (if unsignedAddress instruction machine.core.regs < portLimit then
        portBytes (unsignedAddress instruction machine.core.regs) else []) ++
        machine.bus.covered .io := by
  have hthird (port : Word) : port + 2 + 1 = port + 3 := BitVec.add_assoc _ _ _
  unfold accessPort
  dsimp only
  split
  · rw [portBytes, ← hthird]
    cases op <;> rfl
  · exact congrArg (List.flatMap Access.covered) (machine.programCheck_ports _)

/-- The port that the next step's instruction names, if it is one of input or output. -/
def port? (machine : Machine) : Option Word :=
  match machine.operation? with
  | some (.port _) => some (unsignedAddress machine.current machine.core.regs)
  | _ => none

/-- The byte addresses in I/O space that the next step covers. -/
def coveredNext (machine : Machine) : List Word :=
  match machine.port? with
  | some port => if port < portLimit then portBytes port else []
  | none => []

/-- A step covers these and nothing else. -/
theorem step_covered (machine : Machine) :
    machine.step.1.bus.covered .io = machine.coveredNext ++ machine.bus.covered .io := by
  rw [coveredNext, port?, step_eq]
  cases hpending : machine.pendingException? with
  | some cause =>
    obtain ⟨noted, hnoted, hentry⟩ := entered_of_pending hpending
    have hnone : machine.operation? = none := by rw [operation?, hpending]; rfl
    rw [hentry, hnone]
    exact congrArg (List.flatMap Access.covered) ((noted.enter_ports cause).trans hnoted.ports)
  | none =>
    have hop := operation?_eq_some_iff.mpr ⟨hpending, rfl⟩
    have hfetched : machine.fetch.2.2.bus.covered .io = machine.bus.covered .io :=
      congrArg (List.flatMap Access.covered) machine.fetch_noted.ports
    rw [entered_of_not_pending hpending, hop]
    dsimp only
    rw [executeNext_eq, ← hfetched, ← machine.fetch_core]
    change machine.executed.bus.covered .io = _
    cases hhandler : (decode machine.current.word).handler with
    | port op =>
      rw [executed_of_handler hhandler rfl]
      exact machine.fetch.2.2.accessPort_covered op machine.current
    | _ =>
      refine congrArg (List.flatMap Access.covered) ?_
      rw [executed, hhandler]
      split
      · exact machine.fetch.2.2.programCheck_ports _
      · exact machine.fetch.2.2.execute_ports _ _ fun _ => Op.noConfusion

/-! ## Runs -/

/-- So many steps cover what each of them covers. -/
theorem stepped_covered (machine : Machine) (count : Nat) :
    ∃ during, (machine.stepped count).bus.covered .io = during ++ machine.bus.covered .io ∧
      ∀ address, address ∈ during ↔
        ∃ earlier < count, address ∈ (machine.stepped earlier).coveredNext := by
  induction count generalizing machine with
  | zero => exact ⟨[], rfl, by simp⟩
  | succ count ih =>
    obtain ⟨during, hcovered, hmem⟩ := ih machine.step.1
    refine ⟨during ++ machine.coveredNext, ?_, fun address => ?_⟩
    · rw [stepped, hcovered, step_covered, List.append_assoc]
    · rw [List.mem_append, hmem]
      constructor
      · rintro (⟨earlier, hearlier, haddress⟩ | haddress)
        · exact ⟨earlier + 1, Nat.succ_lt_succ hearlier, haddress⟩
        · exact ⟨0, Nat.succ_pos _, haddress⟩
      · rintro ⟨earlier, hearlier, haddress⟩
        cases earlier with
        | zero => exact .inr haddress
        | succ earlier => exact .inl ⟨earlier, Nat.lt_of_succ_lt_succ hearlier, haddress⟩

/-- A step stays in the window unless its port straddles the limit. -/
theorem coveredNext_in_window_iff (machine : Machine) :
    (∀ address ∈ machine.coveredNext, address < portLimit) ↔
      ∀ port ∈ machine.port?, port ∉ straddlingPorts := by
  rw [coveredNext]
  cases machine.port? with
  | none => simp
  | some port =>
    have hreaches := reaches_limit_iff port
    dsimp only
    simp only [Option.mem_some_iff, forall_eq']
    split
    · next hport =>
      have hwindow : (∀ address ∈ portBytes port, address < portLimit) ↔
          ¬ ∃ address ∈ portBytes port, portLimit ≤ address := by
        simp only [not_exists, not_and, BitVec.not_le]
      rw [hwindow, hreaches, not_or]
      exact and_iff_right (BitVec.not_le.mpr hport)
    · next hport =>
      exact iff_of_true (fun _ h => absurd h List.not_mem_nil) fun hmem =>
        hport (lt_limit_of_straddling hmem)

/-- A port at or beyond the limit is a fault of its instruction. -/
theorem fault_of_port {machine : Machine} {port : Word} (h : machine.port? = some port)
    (hlimit : portLimit ≤ port) : machine.fault? = some .port := by
  rw [port?] at h
  split at h
  · next op hop =>
    obtain ⟨hpending, hhandler⟩ := operation?_eq_some_iff.mp hop
    have hport : unsignedAddress machine.current machine.core.regs = port := Option.some.inj h
    have hslot : ¬ (machine.core.flow = .branchPending ∧ (Op.port op).isBranchClass) :=
      fun h => Bool.false_ne_true h.2
    rw [fault?, entered_of_not_pending hpending, hhandler, Option.isSome_none,
      if_neg Bool.false_ne_true, if_neg hslot, Op.fault?, hport]
    exact if_neg (BitVec.not_lt.mpr hlimit)
  · contradiction

/-- An input or output is stopped by a program check exactly when it would reach the limit, unless its
port straddles it. -/
theorem programChecked_port_iff {machine : Machine} {port : Word} (h : machine.port? = some port) :
    machine.ProgramChecked .port machine.step.1 ↔
      (∃ address ∈ portBytes port, portLimit ≤ address) ∧ port ∉ straddlingPorts := by
  have hbeyond : ((∃ address ∈ portBytes port, portLimit ≤ address) ∧ port ∉ straddlingPorts) ↔
      portLimit ≤ port := by
    rw [reaches_limit_iff, or_and_right, and_not_self_iff, or_false, and_iff_left_iff_imp]
    exact fun hlimit hmem => BitVec.not_le.mpr (lt_limit_of_straddling hmem) hlimit
  rw [hbeyond]
  constructor
  · intro hchecked
    refine Decidable.byContradiction fun hlimit => ?_
    have hcovered := congrArg List.length machine.step_covered
    have hnone : machine.step.1.bus.covered .io = machine.bus.covered .io :=
      congrArg (List.flatMap Access.covered) hchecked.ports
    rw [hnone, coveredNext, h, List.length_append] at hcovered
    dsimp only at hcovered
    rw [if_pos (BitVec.not_le.mp hlimit), portBytes] at hcovered
    simp only [List.length_cons] at hcovered
    omega
  · exact fun hlimit => step_programChecked (fault_of_port h hlimit)

/-- The accesses of a run to I/O space stay in the window exactly when no step of it inputs from or
outputs to one of the three ports that straddle the limit. An input or output that would reach the limit
is stopped by a program check, which accesses no port and loads no register, unless its port is one of
these. -/
theorem run_portWindow (machine : Machine) (budget : Budget) :
    ∃ count cycles during,
      (machine.run budget).1 = (machine.stepped count).withCycles cycles ∧
      (machine.run budget).1.bus.covered .io = during ++ machine.bus.covered .io ∧
      ((∀ address ∈ during, address < portLimit) ↔
        ∀ earlier < count, ∀ port ∈ (machine.stepped earlier).port?,
          port ∉ [0x00FFFFFD, 0x00FFFFFE, 0x00FFFFFF]) ∧
      ∀ earlier < count, ∀ port ∈ (machine.stepped earlier).port?,
        (machine.stepped earlier).ProgramChecked .port (machine.stepped (earlier + 1)) ↔
          (∃ address ∈ portBytes port, portLimit ≤ address) ∧
            port ∉ [0x00FFFFFD, 0x00FFFFFE, 0x00FFFFFF] := by
  obtain ⟨count, cycles, hrun⟩ := machine.runSteps_eq_stepped budget budget.remaining.toNat
  obtain ⟨during, hcovered, hmem⟩ := machine.stepped_covered count
  refine ⟨count, cycles, during, hrun, ?_, ?_, ?_⟩
  · rw [run, hrun, ← hcovered]
    rfl
  · constructor
    · intro hwindow earlier hearlier
      refine (coveredNext_in_window_iff _).mp fun address haddress => ?_
      exact hwindow address ((hmem address).mpr ⟨earlier, hearlier, haddress⟩)
    · intro hports address haddress
      obtain ⟨earlier, hearlier, haddress⟩ := (hmem address).mp haddress
      exact (coveredNext_in_window_iff _).mpr (hports earlier hearlier) address haddress
  · intro earlier _ port hport
    have hlast : machine.stepped (earlier + 1) = (machine.stepped earlier).step.1 :=
      machine.stepped_add earlier 1
    rw [hlast]
    exact programChecked_port_iff hport

/-- Input from the port 0x00FFFFFE: its second halfword is beyond the limit, and is read. -/
theorem port_past_window :
    ¬ ∀ (machine : Machine) (budget : Budget) (during : List Word),
        (machine.run budget).1.bus.covered .io = during ++ machine.bus.covered .io →
          ∀ address ∈ during, address < portLimit := by
  intro hall
  let machine : Machine :=
    ⟨Core.new.withRegs (Registers.zero.setGpr 3 0x00FFFF00),
      Bus.empty.load .program 0 [0xCB, 0x13, 0x00, 0xFE]⟩
  have hcovered : (machine.run ⟨1⟩).1.bus.covered .io =
      [0x01000000, 0x01000001, 0x00FFFFFE, 0x00FFFFFF] ++ machine.bus.covered .io := by
    decide +kernel
  exact absurd (hall machine ⟨1⟩ _ hcovered 0x01000000 (by decide +kernel)) (by decide +kernel)

end Machine

end Romp

end ProcessorCores
