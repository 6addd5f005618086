import Lift6502.Proofs.Flow.Dominance
import Lift6502.Proofs.Routine.Liveness

/-!
# What routines take

A routine takes a register if some path from its entry reads it before anything writes it, where
what other routines take counts as read.
-/

namespace Lift6502

open Interface
open RegisterBlock (ofBlock mem_ofRoutine)

/-- Some way from the entry of a routine reads a register before anything writes it. -/
def RoutineFlow.Takes (f : RoutineFlow) (interfaces : Nat → Interface) (outputs : RegisterSet)
    (r : Register) : Prop :=
  ∃ b ∈ f.blocks, b.id = f.entry ∧ LiveFrom f.blocks interfaces outputs r b

variable {r : Register}

def RoutineFlow.Distinct (flows : List RoutineFlow) : Prop :=
  ∀ f ∈ flows, (f.blocks.map RegisterBlock.id).Nodup

namespace Interface

variable {flows : List RoutineFlow} {interfaces : List Interface} {n : Nat} {f : RoutineFlow}
  {given : Nat → Interface}

theorem number_inputRound (h : flows[n]? = some f) :
    number (inputRound flows interfaces) n =
      { number interfaces n with
        inputs := (liveness f.blocks (number interfaces) (number interfaces n).outputs).get
          f.entry } :=
  number_mapIdx h _

section

variable (hdistinct : RoutineFlow.Distinct flows)
include hdistinct

theorem mem_inputRound (h : flows[n]? = some f) :
    r ∈ (number (inputRound flows interfaces) n).inputs ↔
      f.Takes (number interfaces) (number interfaces n).outputs r := by
  rw [number_inputRound h]
  exact mem_liveness (hdistinct f (List.mem_of_getElem? h))

/-- The equations that sweeps over the routines solve in place, for given outputs. -/
def inputEquations (flows : List RoutineFlow) (interfaces : List Interface) :
    Equations Nat RegisterSet :=
  equations flows fun n f inputs =>
    (liveness f.blocks (fun k => { number interfaces k with inputs := inputs k })
      (number interfaces n).outputs).get f.entry

theorem rounds_inputs (hlength : interfaces.length = flows.length) :
    (inputEquations flows interfaces).Rounds (fun s t => ∀ r ∈ s, r ∈ t) (·.toList.length) 3
      (inputRound flows) (fun l n => (number l n).inputs)
      (Agree (fun i => { i with inputs := ∅ }) flows interfaces)
      (interfaces.map fun i => { i with inputs := ∅ }) := by
  -- Nothing but the inputs is changed by a round.
  have hfields : ∀ l, Agree (fun i : Interface => { i with inputs := ∅ }) flows interfaces l →
      ∀ n, number l n = { number interfaces n with inputs := (number l n).inputs } := by
    intro l hl n
    obtain ⟨-, houtputs, hclobbers⟩ := mk.inj (hl.same n)
    simp only [← houtputs, ← hclobbers]
  refine rounds_equations inputs rfl (fun n f hf values more hmore r hr => ?_)
    (fun _ hl => hl.length)
    (fun l hl => hl.mapIdx fun _ _ => rfl) (fun l hl n f hf => ?_) (fun l _ n f hf heq => ?_)
    ⟨by rw [List.length_map, hlength], fun n => by rw [number_withoutInputs]⟩
    (fun n => by rw [number_withoutInputs])
  · have hnodup := hdistinct f (List.mem_of_getElem? hf)
    obtain ⟨b, hb, hentry, hr⟩ := (mem_liveness hnodup).1 hr
    have hmore : TakeMore (fun k => { number interfaces k with inputs := values k })
        fun k => { number interfaces k with inputs := more k } := ⟨fun _ => rfl, hmore⟩
    exact (mem_liveness hnodup).2 ⟨b, hb, hentry, hr.mono hmore⟩
  · rw [number_inputRound hf, ← funext (hfields l hl), hfields l hl n]
  · rw [number_inputRound hf] at heq ⊢
    simp only at heq
    rw [← heq]

theorem comesToRest_solveInputs (hlength : interfaces.length = flows.length) :
    ComesToRest (inputRound flows) (interfaces.map fun i => { i with inputs := ∅ })
      (solveInputs flows interfaces) :=
  (rounds_inputs hdistinct hlength).comesToRest (by simp [inputEquations, equations])

theorem settles_inputs (hlength : interfaces.length = flows.length) :
    (inputEquations flows interfaces).Settles (fun _ => ∅)
      fun n => (number (solveInputs flows interfaces) n).inputs := by
  have hsettles :=
    (rounds_inputs hdistinct hlength).settles (comesToRest_solveInputs hdistinct hlength)
  simpa only [number_withoutInputs] using hsettles

theorem takeMore_solveInputs (hlength : interfaces.length = flows.length)
    (houtputs : ∀ n, (number interfaces n).outputs = (given n).outputs)
    (hgiven : ∀ n f, flows[n]? = some f → ∀ r, f.Takes given (given n).outputs r →
      r ∈ (given n).inputs) : TakeMore (number (solveInputs flows interfaces)) given := by
  have hagree : Agree outputs flows interfaces (solveInputs flows interfaces) :=
    Agree.solveInputs (fun _ _ => rfl) ⟨hlength, fun _ => rfl⟩
  refine ⟨fun n => (hagree.same n).trans (houtputs n), fun n r hr => ?_⟩
  refine (rounds_inputs hdistinct hlength).least (comesToRest_solveInputs hdistinct hlength)
    (fun n => (given n).inputs) (fun e he r hr => ?_) n r hr
  obtain ⟨n, f, hf, rfl⟩ := exists_of_mem_equations he
  obtain ⟨b, hb, hentry, hr⟩ := (mem_liveness (hdistinct f (List.mem_of_getElem? hf))).1 hr
  have hmore : TakeMore (fun k => { number interfaces k with inputs := (given k).inputs }) given :=
    ⟨houtputs, fun _ _ hr => hr⟩
  exact hgiven n f hf r ⟨b, hb, hentry, houtputs n ▸ hr.mono hmore⟩

end

/-! ## Inputs and outputs in turn -/

theorem solveInputs_solveInputs (hlength : interfaces.length = flows.length) :
    solveInputs flows (solveInputs flows interfaces) = solveInputs flows interfaces := by
  have hagree : Agree (fun i : Interface => { i with inputs := ∅ }) flows interfaces
      (solveInputs flows interfaces) := Agree.solveInputs (fun _ _ => rfl) ⟨hlength, fun _ => rfl⟩
  have hstart : (solveInputs flows interfaces).map (fun i => { i with inputs := ∅ }) =
      interfaces.map fun i => { i with inputs := ∅ } := by
    refine ext_number (by rw [List.length_map, List.length_map, hagree.length, hlength])
      fun n _ => ?_
    rw [number_withoutInputs, number_withoutInputs]
    exact hagree.same n
  rw [solveInputs, hstart]
  rfl

theorem number_growOutputs (h : flows[n]? = some f) :
    ∃ more, number (growOutputs flows interfaces) n =
      { number interfaces n with outputs := (number interfaces n).outputs.union more } :=
  ⟨_, number_mapIdx h _⟩

variable (flows interfaces)

theorem length_growOutputs : (growOutputs flows interfaces).length = flows.length :=
  List.length_mapIdx

def outputTotal : Nat :=
  ((List.range flows.length).map fun n => (number interfaces n).outputs.toList.length).sum

theorem outputTotal_le : outputTotal flows interfaces ≤ 3 * flows.length := by
  refine (List.sum_le_card_nsmul _ 3 fun k hk => ?_).trans (by simp [Nat.mul_comm])
  obtain ⟨n, -, rfl⟩ := List.mem_map.1 hk
  exact RegisterSet.length_toList_le _

variable {flows interfaces}

theorem outputTotal_lt (hlength : interfaces.length = flows.length)
    (hchanged : growOutputs flows interfaces ≠ interfaces) :
    outputTotal flows interfaces < outputTotal flows (growOutputs flows interfaces) := by
  have hmore : ∀ n < flows.length,
      number interfaces n = number (growOutputs flows interfaces) n ∨
        (number interfaces n).outputs.toList.length <
          (number (growOutputs flows interfaces) n).outputs.toList.length := by
    intro n hn
    obtain ⟨more, hmore⟩ := number_growOutputs (List.getElem?_eq_getElem hn)
    rw [hmore]
    by_cases heq : (number interfaces n).outputs = (number interfaces n).outputs.union more
    · exact .inl (by rw [← heq])
    · exact .inr (RegisterSet.length_toList_lt (fun r hr => RegisterSet.mem_union.2 (.inl hr)) heq)
  refine List.sum_lt_sum _ _ (fun n hn => ?_) ?_
  · exact (hmore n (List.mem_range.1 hn)).elim (fun heq => by rw [heq]) Nat.le_of_lt
  · by_contra hsame
    refine hchanged (ext_number (by rw [length_growOutputs, hlength]) fun n hn => ?_)
    rw [length_growOutputs] at hn
    exact ((hmore n hn).resolve_right fun hlt => hsame ⟨n, List.mem_range.2 hn, hlt⟩).symm

structure Solved (flows : List RoutineFlow) (interfaces : List Interface) : Prop where
  length : interfaces.length = flows.length
  solved : solveInputs flows interfaces = interfaces

theorem solved_solveInputs (hlength : interfaces.length = flows.length) :
    Solved flows (solveInputs flows interfaces) :=
  ⟨length_solveInputs hlength, solveInputs_solveInputs hlength⟩

theorem solved_solve (flows : List RoutineFlow) : Solved flows (solve flows) :=
  iterate_invariant (fun l _ => solved_solveInputs (length_growOutputs flows l)) _
    (solved_solveInputs (length_clobbered flows))

theorem comesToRest_solve (flows : List RoutineFlow) :
    ComesToRest (fun interfaces => solveInputs flows (growOutputs flows interfaces))
      (solveInputs flows (clobbered flows)) (solve flows) := by
  refine comesToRest_iterate (p := Solved flows)
    (fun l _ => solved_solveInputs (length_growOutputs flows l))
    (outputTotal flows) (3 * flows.length) (fun l _ => outputTotal_le flows l)
    (fun l hl hchanged => ?_)
    (solved_solveInputs (length_clobbered flows)) (by omega)
  -- If the outputs stayed, the inputs that belong to them would too.
  have hgrown : growOutputs flows l ≠ l := fun heq => hchanged (by rw [heq, hl.solved])
  have hagree : Agree outputs flows (growOutputs flows l)
      (solveInputs flows (growOutputs flows l)) :=
    Agree.solveInputs (fun _ _ => rfl) ⟨length_growOutputs flows l, fun _ => rfl⟩
  refine lt_of_lt_of_eq (outputTotal_lt hl.length hgrown) ?_
  simp only [outputTotal, hagree.same]

/-- All the loops that solve for the interfaces of some routines come to rest, and where sets are
replaced in place, they come to rest at the same sets. -/
structure Terminates (flows : List RoutineFlow) : Prop where
  clobbers : ComesToRest (clobberRound flows) (flows.map fun _ => {}) (clobbered flows)
  clobberSweeps : (clobberEquations flows).Settles (fun _ => ∅) fun n =>
    (number (clobbered flows) n).clobbers
  live : ∀ f ∈ flows, ∀ interfaces outputs,
    ComesToRest (liveRound f.blocks interfaces outputs) (.ofBlocks f.blocks fun _ => ∅)
      (liveness f.blocks interfaces outputs)
  liveSweeps : ∀ f ∈ flows, ∀ interfaces outputs,
    (liveEquations f.blocks interfaces outputs).Settles (fun _ => ∅)
      (liveness f.blocks interfaces outputs).get
  inputs : ∀ interfaces : List Interface, interfaces.length = flows.length →
    ComesToRest (inputRound flows) (interfaces.map fun i => { i with inputs := ∅ })
      (solveInputs flows interfaces)
  inputSweeps : ∀ interfaces : List Interface, interfaces.length = flows.length →
    (inputEquations flows interfaces).Settles (fun _ => ∅)
      fun n => (number (solveInputs flows interfaces) n).inputs
  outputs : ComesToRest (fun interfaces => solveInputs flows (growOutputs flows interfaces))
    (solveInputs flows (clobbered flows)) (solve flows)

variable (hdistinct : RoutineFlow.Distinct flows)
include hdistinct

theorem terminates : Terminates flows where
  clobbers := comesToRest_clobbered flows
  clobberSweeps := settles_clobbers flows
  live f hf interfaces outputs := comesToRest_liveness interfaces outputs (hdistinct f hf)
  liveSweeps f hf interfaces outputs := settles_liveness interfaces outputs (hdistinct f hf)
  inputs _ hlength := comesToRest_solveInputs hdistinct hlength
  inputSweeps _ hlength := settles_inputs hdistinct hlength
  outputs := comesToRest_solve flows

theorem mem_inputs_solve (h : flows[n]? = some f) :
    r ∈ (number (solve flows) n).inputs ↔
      f.Takes (number (solve flows)) (number (solve flows) n).outputs r := by
  have hsolved := solved_solve flows
  have hfixed := (comesToRest_solveInputs hdistinct hsolved.length).fixed
  rw [hsolved.solved] at hfixed
  rw [← mem_inputRound hdistinct h, hfixed]

theorem takeMore_solve (houtputs : ∀ n, (number (solve flows) n).outputs = (given n).outputs)
    (hgiven : ∀ n f, flows[n]? = some f → ∀ r, f.Takes given (given n).outputs r →
      r ∈ (given n).inputs) : TakeMore (number (solve flows)) given := by
  have hsolved := solved_solve flows
  rw [← hsolved.solved]
  exact takeMore_solveInputs hdistinct hsolved.length houtputs hgiven

end Interface

/-! ## Paths through a routine -/

/-- The last instruction returns, or nothing follows the block and it does not end in a jump. -/
def Block.Returns (b : Block) : Prop :=
  (∃ i, b.code.getLast? = some i ∧ (i.opcode = .rts ∨ i.opcode = .rti)) ∨
    b.successors = [] ∧ ∀ i, b.code.getLast? = some i → i.opcode ≠ .jmp

theorem RegisterBlock.leaves_iff_returns (b : Block) : leaves b = true ↔ b.Returns := by
  have hreturn : ∀ o : Opcode, o.isReturn = true ↔ o = .rts ∨ o = .rti := by
    intro o
    cases o <;> decide
  rw [leaves, Block.terminator?, Block.Returns]
  rcases b.code.getLast? with _ | i
  · simp
  · simp only [Option.some.injEq, exists_eq_left', forall_eq', ← hreturn]
    rcases htransfer : i.opcode.isControlTransfer
    · -- No return and no jump, as these transfer control.
      rw [Option.filter_some, htransfer]
      rw [Opcode.isControlTransfer, Bool.or_eq_false_iff, Bool.or_eq_false_iff] at htransfer
      simpa [htransfer.1.2] using fun _ => by simpa using htransfer.2
    · rw [Option.filter_some, htransfer]
      simp

namespace Routines

variable {g : Graph} {rs : Routines} {inputs : Routine → RegisterSet} {r : Routine} {b : BlockId}
  {k : Nat} {step : RegisterStep} {q : Register} {own : Instruction → LocationSet}
  {called : Routine → RegisterSet} {n : Nat} {t : BlockId}

/-- A register is one of those that belong to an instruction of a block. Those of a call are given
by the routine that it calls. -/
def Touches (g : Graph) (rs : Routines) (called : Routine → RegisterSet)
    (own : Instruction → LocationSet) (b : BlockId) (k : Nat) (q : Register) : Prop :=
  ∃ i, (g.block b).code[k]? = some i ∧
    match ((g.block b).callAt? k).bind rs.atEntry? with
    | some callee => q ∈ called callee
    | none => Location.register q ∈ own i

def Uses (g : Graph) (rs : Routines) (inputs : Routine → RegisterSet) :
    BlockId → Nat → Register → Prop :=
  Touches g rs inputs fun i => i.effects.reads

def Defines (g : Graph) (rs : Routines) : BlockId → Nat → Register → Prop :=
  Touches g rs Routine.outputs fun i => i.effects.writes

/-- A register is read at the end of a block of routine `r`: by the callers of `r` if the block
returns, and by a routine that takes over, which also returns to them. -/
def UsesAtEnd (g : Graph) (rs : Routines) (inputs : Routine → RegisterSet) (r : Routine)
    (b : BlockId) (q : Register) : Prop :=
  ((g.block b).Returns ∧ q ∈ r.outputs) ∨
    ∃ t ∈ g.successors b, rs.handsOver b t = true ∧
      ∃ callee, rs.atEntry? t = some callee ∧ (q ∈ inputs callee ∨ q ∈ r.outputs)

/-- A block uses a register with no definition before it. -/
def UsesFirst (g : Graph) (rs : Routines) (inputs : Routine → RegisterSet) (r : Routine)
    (b : BlockId) (q : Register) : Prop :=
  (∃ k, Uses g rs inputs b k q ∧ ∀ j < k, ¬ Defines g rs b j q) ∨
    (∀ k, ¬ Defines g rs b k q) ∧ UsesAtEnd g rs inputs r b q

/-- Some path from a block through the blocks of a routine comes to a use of a register, with no
definition on the way. -/
def LiveAt (g : Graph) (rs : Routines) (inputs : Routine → RegisterSet) (r : Routine) (b : BlockId)
    (q : Register) : Prop :=
  ∃ c blocks, g.Path r.blocks b c blocks ∧ (∀ x ∈ blocks.dropLast, ∀ k, ¬ Defines g rs x k q) ∧
    UsesFirst g rs inputs r c q

def withInputs (rs : Routines) (inputs : Routine → RegisterSet) (n : Nat) : Interface :=
  match rs.all[n]? with
  | some r => { r.interface with inputs := inputs r }
  | none => {}

theorem withInputs_of_getElem? (h : rs.all[n]? = some r) :
    rs.withInputs inputs n = { r.interface with inputs := inputs r } := by
  rw [withInputs, h]

theorem mem_step_iff_touches {ofStep : RegisterStep → RegisterSet}
    (hcall : ∀ n r writes, rs.all[n]? = some r → ofStep (.call n writes) = called r)
    (hstep : (ofBlock g rs b).steps[k]? = some step)
    (hown : ∀ i : Instruction, ofStep (.plain i.effects.reads.registers i.effects.writes.registers)
      = (own i).registers) : q ∈ ofStep step ↔ Touches g rs called own b k q := by
  rw [ofBlock, List.getElem?_mapIdx, Option.map_eq_some_iff] at hstep
  obtain ⟨i, hi, rfl⟩ := hstep
  have hregister : q ∈ (own i).registers ↔ Location.register q ∈ own i := by cases q <;> rfl
  simp only [Touches, hi, Option.some.injEq, exists_eq_left', funext (atEntry?_eq_bind rs)]
  rcases (g.block b).callAt? k with _ | entry
  · exact hown i ▸ hregister
  rcases hnumber : rs.numberAt? entry with _ | n
  · simp only [Option.bind_some, hnumber, Option.bind_none]
    exact hown i ▸ hregister
  · obtain ⟨hn, -, -⟩ := List.findIdx?_eq_some_iff_getElem.1 hnumber
    simp only [Option.bind_some, hnumber, List.getElem?_eq_getElem hn]
    rw [hcall n _ _ (List.getElem?_eq_getElem hn)]

theorem mem_reads_iff_uses (hstep : (ofBlock g rs b).steps[k]? = some step) :
    q ∈ step.reads (rs.withInputs inputs) ↔ Uses g rs inputs b k q :=
  mem_step_iff_touches (fun n r _ hr => by rw [RegisterStep.reads, withInputs_of_getElem? hr]) hstep
    fun _ => rfl

theorem mem_writes_iff_defines (hstep : (ofBlock g rs b).steps[k]? = some step) :
    q ∈ step.writes (rs.withInputs inputs) ↔ Defines g rs b k q :=
  mem_step_iff_touches (fun n r _ hr => by rw [RegisterStep.writes, withInputs_of_getElem? hr]; rfl)
    hstep fun _ => rfl

theorem Touches.exists_step (h : Touches g rs called own b k q) :
    ∃ step, (ofBlock g rs b).steps[k]? = some step := by
  obtain ⟨i, hi, -⟩ := h
  rw [ofBlock, List.getElem?_mapIdx, hi]
  exact ⟨_, rfl⟩

theorem spares_ofBlock : (ofBlock g rs b).Spares (rs.withInputs inputs) q ↔
    ∀ k, ¬ Defines g rs b k q := by
  constructor
  · intro hspares k hdefines
    obtain ⟨step, hstep⟩ := hdefines.exists_step
    exact hspares step (List.mem_of_getElem? hstep) ((mem_writes_iff_defines hstep).2 hdefines)
  · intro hfree step hstep hwrites
    obtain ⟨k, hk⟩ := List.mem_iff_getElem?.1 hstep
    exact hfree k ((mem_writes_iff_defines hk).1 hwrites)

theorem readFirst_ofBlock :
    RegisterStep.ReadFirst (rs.withInputs inputs) q (ofBlock g rs b).steps ↔
      ∃ k, Uses g rs inputs b k q ∧ ∀ j < k, ¬ Defines g rs b j q := by
  constructor
  · rintro ⟨k, step, hstep, hreads, hfree⟩
    refine ⟨k, (mem_reads_iff_uses hstep).1 hreads, fun j hj hdefines => ?_⟩
    obtain ⟨earlier, hearlier⟩ := hdefines.exists_step
    exact hfree j hj earlier hearlier ((mem_writes_iff_defines hearlier).2 hdefines)
  · rintro ⟨k, huses, hfree⟩
    obtain ⟨step, hstep⟩ := huses.exists_step
    refine ⟨k, step, hstep, (mem_reads_iff_uses hstep).2 huses,
      fun j hj earlier hearlier hwrites => ?_⟩
    exact hfree j hj ((mem_writes_iff_defines hearlier).1 hwrites)

theorem block_mem_onward : .block t ∈ (ofBlock g rs b).onward ↔
    t ∈ g.successors b ∧ rs.takesOver? b t = none := by
  rw [ofBlock, List.mem_map]
  constructor
  · rintro ⟨s, hs, heq⟩
    rcases htakes : rs.takesOver? b s with _ | n
    · rw [htakes] at heq
      obtain rfl := Onward.block.inj heq
      exact ⟨hs, htakes⟩
    · rw [htakes] at heq
      exact Onward.noConfusion heq
  · rintro ⟨ht, htakes⟩
    exact ⟨t, ht, by rw [htakes]⟩

theorem readsAtEnd_ofBlock :
    (ofBlock g rs b).ReadsAtEnd (rs.withInputs inputs) r.outputs q ↔
      UsesAtEnd g rs inputs r b q := by
  refine or_congr (and_congr_left fun _ => RegisterBlock.leaves_iff_returns _) ⟨?_, ?_⟩
  · rintro ⟨n, honward, hq⟩
    obtain ⟨t, ht, htakes⟩ := routine_mem_onward.1 honward
    obtain ⟨hover, hnumber⟩ := takesOver?_eq_some_iff.1 htakes
    obtain ⟨hn, -, -⟩ := List.findIdx?_eq_some_iff_getElem.1 hnumber
    have hget := List.getElem?_eq_getElem hn
    rw [withInputs_of_getElem? hget] at hq
    exact ⟨t, ht, hover, _, by rw [atEntry?_eq_bind, hnumber]; exact hget, hq⟩
  · rintro ⟨t, ht, hover, callee, hcallee, hq⟩
    obtain ⟨n, hnumber, hget⟩ := exists_number hcallee
    refine ⟨n, routine_mem_onward.2 ⟨t, ht, takesOver?_eq_some_iff.2 ⟨hover, hnumber⟩⟩, ?_⟩
    rw [withInputs_of_getElem? hget]
    exact hq

theorem reads_ofBlock :
    (ofBlock g rs b).Reads (rs.withInputs inputs) r.outputs q ↔
      UsesFirst g rs inputs r b q :=
  or_congr readFirst_ofBlock (and_congr spares_ofBlock readsAtEnd_ofBlock)

section

variable (hsep : Separate rs.all) (hr : r ∈ rs.all)

include hsep hr

theorem takesOver?_eq_none (hb : b ∈ r.blocks) (ht : t ∈ r.blocks) : rs.takesOver? b t = none := by
  obtain ⟨m, hm⟩ := List.mem_iff_getElem?.1 hr
  rw [takesOver?, (owner?_eq_some_iff hsep).2 ⟨r, hm, hb⟩]
  rcases hnumber : rs.numberAt? t with _ | n
  · rfl
  -- A routine that starts at `t` has `t`, as `r` does.
  obtain ⟨callee, hn, rfl⟩ := (numberAt?_eq_some_iff hsep).1 hnumber
  have howner :=
    (owner?_eq_some_iff hsep).2 ⟨callee, hn, hsep.entry_mem callee (List.mem_of_getElem? hn)⟩
  rw [(owner?_eq_some_iff hsep).2 ⟨r, hm, ht⟩] at howner
  simp [Option.some.inj howner]

theorem liveFrom_ofBlock (hb : Reaches g r b) :
    LiveFrom (RegisterBlock.ofRoutine g rs r) (rs.withInputs inputs) r.outputs q
      (ofBlock g rs b) ↔ LiveAt g rs inputs r b q := by
  constructor
  · intro hlive
    generalize hc : ofBlock g rs b = c at hlive
    induction hlive generalizing b with
    | reads hreads =>
      obtain rfl := hc
      exact ⟨b, [b], .single b, fun x hx => absurd hx List.not_mem_nil, reads_ofBlock.1 hreads⟩
    | onward hspares hmem hedge _ ih =>
      obtain rfl := hc
      obtain ⟨next, hnext, rfl⟩ := mem_ofRoutine.1 hmem
      obtain ⟨last, blocks, hpath, hfree, huses⟩ := ih hnext rfl
      have hmember := WayTo.mem_members hnext (hsep.entry_mem r hr)
      refine ⟨last, b :: blocks, .cons (block_mem_onward.1 hedge).1 hmember hpath, ?_, huses⟩
      rw [List.dropLast_cons_of_ne_nil hpath.ne_nil, List.forall_mem_cons]
      exact ⟨spares_ofBlock.1 hspares, hfree⟩
  · rintro ⟨last, blocks, hpath, hfree, huses⟩
    induction hpath with
    | single a => exact .reads (reads_ofBlock.2 huses)
    | @cons a next last blocks hedge hmember hpath ih =>
      rw [List.dropLast_cons_of_ne_nil hpath.ne_nil, List.forall_mem_cons] at hfree
      have hnext : Reaches g r next :=
        hb.tail (Graph.mem_successorsIn.2 ⟨hedge, hmember⟩) List.not_mem_nil
      have hstays := takesOver?_eq_none hsep hr (WayTo.mem_members hb (hsep.entry_mem r hr)) hmember
      exact .onward (spares_ofBlock.2 hfree.1) (mem_ofRoutine.2 ⟨next, hnext, rfl⟩)
        (block_mem_onward.2 ⟨hedge, hstays⟩) (ih hnext hfree.2 huses)

theorem takes_flow_iff :
    (flow g rs r).Takes (rs.withInputs inputs) r.outputs q ↔ LiveAt g rs inputs r r.entry q := by
  have hentry : Reaches g r r.entry := .refl List.not_mem_nil
  rw [← liveFrom_ofBlock hsep hr hentry]
  constructor
  · rintro ⟨c, hc, hid, hlive⟩
    obtain ⟨b, -, rfl⟩ := mem_ofRoutine.1 hc
    obtain rfl : b = r.entry := hid
    exact hlive
  · intro hlive
    exact ⟨_, mem_ofRoutine.2 ⟨r.entry, hentry, rfl⟩, rfl, hlive⟩

end

/-! ## The routines of a graph -/

variable {roots : List BlockId}

theorem distinct_flows (g : Graph) (roots : List BlockId) :
    RoutineFlow.Distinct (flows g roots) := by
  intro f hf
  obtain ⟨r, -, rfl⟩ := List.mem_map.1 hf
  rw [flow, RegisterBlock.ofRoutine, List.map_map]
  have hid : RegisterBlock.id ∘ ofBlock g (partition g roots).1 = id := rfl
  rw [hid, List.map_id]
  exact BlockSet.nodup_toList _

theorem withInputs_ofGraph (g : Graph) (roots : List BlockId) :
    (ofGraph g roots).1.withInputs Routine.inputs =
      number (solve (flows g roots)) := by
  funext n
  rcases hn : (ofGraph g roots).1.all[n]? with _ | r
  · rw [withInputs, hn, number_of_length_le]
    rwa [length_solve, flows_eq_map, List.length_map, ← List.getElem?_eq_none_iff]
  · rw [withInputs_of_getElem? hn, ← interface_eq_number hn]
    rfl

/-- The inputs of some routines are the least that meet the equations between them. -/
structure LeastInputs (g : Graph) (rs : Routines) : Prop where
  live : ∀ r ∈ rs.all, ∀ q, q ∈ r.inputs ↔ LiveAt g rs Routine.inputs r r.entry q
  least : ∀ inputs : Routine → RegisterSet,
    (∀ r ∈ rs.all, ∀ q, LiveAt g rs inputs r r.entry q → q ∈ inputs r) →
      ∀ r ∈ rs.all, ∀ q ∈ r.inputs, q ∈ inputs r

theorem mem_inputs_ofGraph (hr : r ∈ (ofGraph g roots).1.all) :
    q ∈ r.inputs ↔ LiveAt g (ofGraph g roots).1 Routine.inputs r r.entry q := by
  obtain ⟨n, hn⟩ := List.mem_iff_getElem?.1 hr
  rw [← takes_flow_iff (separate_ofGraph g roots) hr, withInputs_ofGraph, Routine.inputs,
    Routine.outputs, interface_eq_number hn]
  exact mem_inputs_solve (distinct_flows g roots) (getElem?_flows hn)

theorem mem_of_mem_inputs_ofGraph
    (hinputs : ∀ r ∈ (ofGraph g roots).1.all, ∀ q, LiveAt g (ofGraph g roots).1 inputs r r.entry q →
      q ∈ inputs r) (hr : r ∈ (ofGraph g roots).1.all) (hq : q ∈ r.inputs) : q ∈ inputs r := by
  have hmore : Interface.TakeMore (number (solve (flows g roots)))
      ((ofGraph g roots).1.withInputs inputs) := by
    refine takeMore_solve (distinct_flows g roots) (fun n => ?_) fun n f hf q hq => ?_
    · rw [← withInputs_ofGraph, withInputs, withInputs]
      cases (ofGraph g roots).1.all[n]? <;> rfl
    · rw [flows_eq_map, List.getElem?_map, Option.map_eq_some_iff] at hf
      obtain ⟨r, hget, rfl⟩ := hf
      have hmem := List.mem_of_getElem? hget
      rw [withInputs_of_getElem? hget] at hq ⊢
      exact hinputs r hmem q ((takes_flow_iff (separate_ofGraph g roots) hmem).1 hq)
  obtain ⟨n, hn⟩ := List.mem_iff_getElem?.1 hr
  rw [Routine.inputs, interface_eq_number hn] at hq
  have htaken := hmore.inputs n q hq
  rwa [withInputs_of_getElem? hn] at htaken

/-- The inputs of the routines of a graph are the registers that are live at their entries, and no
more than they must be. The loops that find them end. -/
theorem inputs_least_live (g : Graph) (roots : List BlockId) :
    LeastInputs g (ofGraph g roots).1 ∧
      (ofGraph g roots).1.all.map Routine.interface = Interface.solve (flows g roots) ∧
      Interface.Terminates (flows g roots) :=
  ⟨⟨fun _ hr _ => mem_inputs_ofGraph hr, fun _ hinputs _ hr _ hq => mem_of_mem_inputs_ofGraph
    hinputs hr hq⟩, map_interface_ofGraph g roots, Interface.terminates (distinct_flows g roots)⟩

/-- Two routines that go on in each other: one calls, the other one takes over for good. -/
def relay : Graph where
  blocks := #[
    { label := some "Start", offset := 0, code := [⟨.ldx, .immediate (.byte 3)⟩,
        ⟨.jsr, .direct (.symbol "Ping") .absolute⟩, ⟨.rts, .implied⟩], calls := [(1, 1)] },
    { label := some "Ping", offset := 6, code := [⟨.jsr, .direct (.symbol "Pong") .absolute⟩,
        ⟨.rts, .implied⟩], calls := [(0, 2)] },
    { label := some "Pong", offset := 10, code := [⟨.tya, .implied⟩,
        ⟨.jmp, .direct (.symbol "Ping") .absolute⟩], branch := some 1 }]
  entry := some 0

/-- What the second routine reads, all of them take; what it writes, none does, although the first
one hands it back. -/
theorem inputs_relay :
    (∀ r ∈ (ofGraph relay [0]).1.all, LiveAt relay (ofGraph relay [0]).1 Routine.inputs r
      r.entry .y) ∧ ∀ r ∈ (ofGraph relay [0]).1.all, .a ∈ r.outputs ∧
        ¬ LiveAt relay (ofGraph relay [0]).1 Routine.inputs r r.entry .a := by
  have hinputs : ∀ r ∈ (ofGraph relay [0]).1.all, .y ∈ r.inputs ∧ .a ∈ r.outputs ∧
      .a ∉ r.inputs := by
    decide +kernel
  have hlive := (inputs_least_live relay [0]).1.live
  refine ⟨fun r hr => (hlive r hr .y).1 (hinputs r hr).1, fun r hr =>
    ⟨(hinputs r hr).2.1, fun ha => ?_⟩⟩
  exact (hinputs r hr).2.2 ((hlive r hr .a).2 ha)

end Routines

end Lift6502
