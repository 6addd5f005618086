import Lift6502.Proofs.Generate.Block
import Lift6502.Proofs.Tree.Laws

/-!
# What blocks write

A block changes only what `Generator.writtenBy` says, and the body of a loop only what
`Generator.modifiedBy` says.
-/

namespace Lift6502

open LocationSet

variable {l : Location} {core core' : Core} {e : BlockEnd Core} {i : Instruction}

namespace LocationSet

theorem mem_foldl_union {sets : List LocationSet} {s : LocationSet} :
    l ∈ sets.foldl union s ↔ l ∈ s ∨ ∃ t ∈ sets, l ∈ t := by
  induction sets generalizing s with
  | nil => simp
  | cons t rest ih => simp [ih, or_assoc]

theorem register_mem_ofRegisters {r : Register} {s : RegisterSet} :
    Location.register r ∈ ofRegisters s ↔ r ∈ s := by
  cases r <;> rfl

end LocationSet

theorem Core.value_step {work? : Option Work} {opcode : Opcode} {onAccumulator : Bool}
    (hmode : ∀ w, work? = some w → onAccumulator = false → w.mode ≠ .accumulator)
    (h : core.step work? opcode = some core')
    (hl : l ∉ (Instruction.opcodeEffects onAccumulator opcode).2) :
    core'.cpu.value l = core.cpu.value l := by
  have hwork : ∀ {f : Work → Cpu}, (work?.map fun w => { core with cpu := f w }) = some core' →
      ∃ w, work? = some w ∧ core'.cpu = f w := by
    intro f hf
    obtain ⟨w, hw, hcore⟩ := Option.map_eq_some_iff.1 hf
    exact ⟨w, hw, by rw [← hcore]⟩
  have hsuits : opcode ∉ [.inc, .dec] → ∀ w, work? = some w →
      w.mode.Suits onAccumulator opcode := by
    intro hcount w hw haccumulator
    cases honAccumulator : onAccumulator with
    | false => exact absurd haccumulator (hmode w hw honAccumulator)
    | true => exact ⟨rfl, hcount⟩
  cases opcode with
  | pha | php | jmp | bcc | bcs | beq | bmi | bne | bpl | bvc | bvs =>
    cases h
    rfl
  | jsr | rts | rti | brk | tsx | txs => cases h
  | pla =>
    rw [step] at h
    split at h
    · cases h
    · cases h
      exact core.cpu.value_setRegister .a _ hl
  | plp =>
    rw [step] at h
    split at h
    · cases h
    · cases h
      rcases l with r | f
      · cases r <;> rfl
      · exact absurd (List.mem_map.2 ⟨f, Flag.mem_all f, rfl⟩) hl
  | clc | cld | cli | clv | dex | dey | inx | iny | nop | sec | sed | sei | tax | tay | txa | tya =>
    cases h
    exact core.cpu.value_apply (fun heq => by cases heq) (by decide) 0 0 hl
  | dec | inc =>
    obtain ⟨w, -, hcore⟩ := Option.bind_eq_some_iff.1 h
    split at hcore
    · cases hcore
    · next hne =>
      cases hcore
      exact core.cpu.value_apply (fun heq => absurd heq hne) (by decide) _ _ hl
  | adc | and | asl | bit | cmp | cpx | cpy | eor | lda | ldx | ldy | lsr | ora | rol | ror | sbc
  | sta | stx | sty =>
    obtain ⟨w, hw, hcpu⟩ := hwork h
    rw [hcpu]
    exact core.cpu.value_apply (hsuits (by decide) w hw) (by decide) _ _ hl

theorem Program.mode_codeWork? {p : Program} {c : Cpu} {w : Work} (hw : p.codeWork? i c = some w)
    (huses : i.operand.usesMemory = true) : w.mode ≠ .accumulator := by
  unfold Program.codeWork? at hw
  split at hw
  · next hoperand =>
    rw [hoperand] at huses
    cases huses
  · next hoperand =>
    rw [hoperand] at huses
    cases huses
  · next hoperand =>
    rw [hoperand] at huses
    cases huses
  · split at hw
    · next written mode _ hmode =>
      cases hw
      exact mode_ne_accumulator huses hmode
    · cases hw

/-- A rule for calls that leaves alone what the routines do not clobber. -/
def KeepsRegisters (rs : Routines) (call : TreeCall) : Prop :=
  ∀ {entry callee core core'}, rs.atEntry? entry = some callee → call callee core = .ok core' →
    ∀ r, r ∉ callee.clobbers → core'.cpu.register r = core.cpu.register r

/-- The location is not among those that an instruction of a block writes, directly or in a call. -/
def Setting.Spares (S : Setting) (block : Block) (l : Location) (index : Nat) (i : Instruction) :
    Prop :=
  l ∉ i.effects.writes ∧ (i.opcode = .jsr → ∀ callee,
    (block.callAt? index).bind S.routines.atEntry? = some callee → ∀ r, l = .register r →
      r ∉ callee.clobbers)

theorem Setting.value_runCode {S : Setting} {p : Program} (hwork : S.work? = p.codeWork?)
    {call : TreeCall} (hcall : KeepsRegisters S.routines call) {block : Block} {index : Nat}
    {code : List Instruction} {core : Core}
    (hl : ∀ (k : Nat) i, code[k]? = some i → S.Spares block l (index + k) i)
    (h : S.runCode call block index code core = .ok e) :
    e.state.cpu.value l = core.cpu.value l := by
  induction code generalizing index core with
  | nil =>
    rw [runCode] at h
    cases h
    split <;> rfl
  | cons i rest ih =>
    have hspares : S.Spares block l index i := hl 0 i rfl
    have hrest : ∀ (k : Nat) j, rest[k]? = some j → S.Spares block l (index + 1 + k) j := by
      intro k j hj
      have hlater := hl (k + 1) j hj
      rwa [Nat.add_comm k 1, ← Nat.add_assoc] at hlater
    by_cases hrts : i.opcode = .rts
    · rw [runCode, hrts] at h
      cases h
      rfl
    by_cases hjsr : i.opcode = .jsr
    · rw [runCode, hjsr] at h
      simp only at h
      rcases hcallee : (block.callAt? index).bind S.routines.atEntry? with _ | callee <;>
        simp only [hcallee] at h
      · cases h
      rcases hresult : call callee core with e' | core1 <;> simp only [hresult] at h
      · cases h
      rw [ih hrest h]
      obtain ⟨entry, -, hentry⟩ := Option.bind_eq_some_iff.1 hcallee
      rcases l with r | f
      · exact congrArg UInt8.toUInt32
          (hcall hentry hresult r (hspares.2 hjsr callee hcallee r rfl))
      · refine absurd ?_ hspares.1
        unfold Instruction.effects
        rw [hjsr, mem_ofList]
        exact List.mem_map.2 ⟨f, Flag.mem_all f, rfl⟩
    · rw [Setting.runCode_cons hjsr hrts] at h
      rcases hstep : core.step (S.work? i core.cpu) i.opcode with _ | core1 <;> rw [hstep] at h
      · cases h
      rw [ih hrest h]
      have hmode : ∀ w, S.work? i core.cpu = some w → (!i.operand.usesMemory) = false →
          w.mode ≠ .accumulator := by
        intro w hw huses
        rw [hwork] at hw
        exact Program.mode_codeWork? hw (by simpa using huses)
      exact Core.value_step hmode hstep fun hmem => hspares.1 (mem_ofList.2 hmem)

namespace Generator

variable {c : Generator} {b header : BlockId} {body : List ControlNode} {l : Location}

theorem mem_writtenBy {k : Nat} (hi : (c.graph.block b).code[k]? = some i)
    (hl : l ∈ i.effects.writes ∨ i.opcode = .jsr ∧ ∃ callee r,
      ((c.graph.block b).callAt? k).bind c.routines.atEntry? = some callee ∧ l = .register r ∧
      r ∈ callee.clobbers) : l ∈ c.writtenBy b := by
  obtain ⟨hk, hget⟩ := List.getElem?_eq_some_iff.1 hi
  refine mem_foldl_union.2 (.inr ⟨_, List.mem_mapIdx.2 ⟨k, hk, rfl⟩, ?_⟩)
  rw [hget, mem_union]
  refine hl.imp id ?_
  rintro ⟨hjsr, callee, r, hcallee, rfl, hr⟩
  rw [if_pos hjsr, hcallee]
  exact register_mem_ofRegisters.2 hr

theorem not_mem_writtenBy (hl : l ∉ c.modifiedBy header body) (hb : b = header ∨
    b ∈ ControlNode.blocksRun body) : l ∉ c.writtenBy b := by
  intro hwritten
  refine hl (mem_foldl_union.2
    (.inr ⟨c.writtenBy b, List.mem_map.2 ⟨b, ?_, rfl⟩, hwritten⟩))
  rcases hb with rfl | hb
  · exact List.mem_cons_self
  · refine List.mem_cons_of_mem header ?_
    obtain ⟨n, hn, hown⟩ := List.mem_filterMap.1 hb
    refine List.mem_filterMap.2 ⟨n, hn, ?_⟩
    cases n <;> exact hown

end Generator

namespace Stage

variable {S : Stage}

theorem CallsMirror.keepsRegisters (h : S.CallsMirror) :
    KeepsRegisters S.generator.routines S.call := by
  intro entry callee core core' hcallee hcall
  have hmirrors := h entry callee core (.ofFn fun r => some (core.cpu.register r).toUInt32) hcallee
    fun r _ => by rw [PerRegister.get_ofFn]
  rw [hcall] at hmirrors
  exact hmirrors.2.1

theorem value_runBlock (hcalls : S.CallsMirror) {b : BlockId} {core : Core}
    (h : S.machine.run b core = .ok e) (hl : l ∉ S.generator.writtenBy b) :
    e.state.cpu.value l = core.cpu.value l := by
  refine Setting.value_runCode rfl hcalls.keepsRegisters (fun k i hi => ⟨?_, ?_⟩) h
  · exact fun hmem => hl (Generator.mem_writtenBy hi (.inl hmem))
  · rintro hjsr callee hcallee r rfl hr
    rw [Nat.zero_add] at hcallee
    exact hl (Generator.mem_writtenBy hi (.inr ⟨hjsr, callee, r, hcallee, rfl, hr⟩))

theorem value_runNodes (hcalls : S.CallsMirror) {next : BlockId} {nodes : List ControlNode}
    {u : Surroundings} {around : List LoopContext} (hwell : u.AllWellFormed around nodes)
    {way : Way} (h : S.runNodes next nodes core = .ok (way, core'))
    (hl : ∀ b ∈ ControlNode.blocksRun nodes, l ∉ S.generator.writtenBy b) :
    core'.cpu.value l = core.cpu.value l := by
  have hkept : ControlNode.Kept S.machine (fun c c' => c'.cpu.value l = c.cpu.value l)
      (ControlNode.blocksRun nodes) :=
    ⟨fun _ => rfl, fun h h' => h'.trans h, fun b hb _ _ hrun =>
      value_runBlock hcalls hrun (hl b hb)⟩
  exact (hkept.runNodes nodes hwell h).1

end Stage

end Lift6502
