import Lift6502.Proofs.Generate.Addressing
import Lift6502.Proofs.Generate.Join
import Lift6502.Proofs.Run.Timed

/-!
# One instruction in code and on the processor

The code for an instruction does what `Cpu.execute` does. Besides memory it changes only new
temporaries.
-/

namespace Lift6502

open Expression Gen Generator Evaluator

/-- All variables except temporaries that were not issued yet. -/
def Progress.untouched (p : Progress) : Issue := ⟨p.temps, 0, true⟩

instance : Counts Progress.untouched := ⟨fun _ => rfl, fun h => ⟨h.temps, Nat.le_refl 0, id⟩⟩

theorem isIssued_untouched {p : Progress} {v : Variable} :
    v.IsIssued p.untouched ↔ ∀ id, v = .temp id → id ≤ p.temps := by
  constructor
  · rintro h id rfl
    exact h
  · intro h
    cases v with
    | temp id => exact h id rfl
    | merge | input => trivial
    | dispatch => rfl

/-- The expression evaluates to a word. What a state binds to a location reads no memory, as stores
would change its value, and no temporary behind the last one issued. -/
structure Expression.StandsFor (function : String) (σ : Scene) (temps : Nat) (e : Expression)
    (w : UInt32) : Prop where
  pure : e.readsMemory = false
  issued : ∀ id, .temp id ∈ e.reads → id ≤ temps
  value : e.eval function σ.env σ.memory = .ok w

theorem Expression.standsFor_iff {function : String} {σ : Scene} {p : Progress} {e : Expression}
    {w : UInt32} : e.StandsFor function σ p.temps w ↔ e.HasValue (σ.env.known p.untouched) w := by
  constructor
  · rintro ⟨hpure, hissued, hvalue⟩
    refine HasValue.of_eval hpure (fun v hv => ?_) hvalue
    have hv : v.IsIssued p.untouched := isIssued_untouched.2 fun id hid => hissued id (hid ▸ hv)
    unfold Environment.known
    rw [if_pos hv]
  · intro h
    refine ⟨h.readsMemory_eq_false, fun id hid => ?_, h.eval_known function⟩
    exact Environment.isIssued_of_known (h.isSome_of_mem_reads _ hid)

/-- The entry stands for a byte on the stack, in the sense of `R`; a status entry for the
flags in it. -/
def StackEntry.Shows (R : Expression → UInt32 → Prop) : StackEntry → UInt8 → Prop
  | .byte b, pushed => ∀ e, b.expression? .a = some e → R e pushed.toUInt32
  | .status flags, pushed => ∀ f e, (flags.get f).expression? (.flag f) = some e →
      R e ((Status.ofByte pushed).get f).toUInt32

/-- Every location with a value in the state holds it in the processor, in the sense of `R`, and the
bytes above `base` on its stack are those that the state has. -/
structure SymbolicState.Shows (R : Expression → UInt32 → Prop) (s : SymbolicState) (core : Core)
    (base : List UInt8) : Prop where
  location : ∀ l e, s.expression? l = some e → R e (core.cpu.value l)
  stack : ∃ pushed, core.stack = pushed ++ base ∧ List.Forall₂ (StackEntry.Shows R) s.stack pushed

theorem SymbolicState.shows_iff_describes {R : Expression → UInt32 → Prop} {known : Known}
    (h : ∀ e w, R e w ↔ e.HasValue known w) {s : SymbolicState} {core : Core} {base : List UInt8} :
    s.Shows R core base ↔ s.Describes known core base := by
  obtain rfl : R = HasValue known := funext fun e => funext fun w => propext (h e w)
  have hentry : StackEntry.Shows (HasValue known) = StackEntry.Holds known := by
    funext entry pushed
    cases entry <;> rfl
  constructor
  · rintro ⟨hlocation, hstack⟩
    rw [hentry] at hstack
    exact ⟨hlocation, stackDescribes_iff.2 hstack⟩
  · rintro ⟨hlocation, hstack⟩
    refine ⟨hlocation, ?_⟩
    rw [hentry]
    exact stackDescribes_iff.1 hstack

/-- Code that runs to its end without loops and calls does so in the evaluator, which
counts some steps. -/
theorem exists_cost_execAll {functions : List FunctionDef} {depth : Nat} {function : String}
    {statements : List Statement} {σ σ' : Scene}
    (h : Host.run ⟨0, callUntimed functions 0 depth, function⟩ statements σ = .ok (.normal, σ')) :
    ∃ cost, ∀ limit steps, steps + cost ≤ limit →
      (execAll { functions, limit } (invoke { functions, limit } depth) function
        statements).run.run (σ.at steps) = (.ok .normal, σ'.at (steps + cost)) := by
  have hagrees : Agrees 0 (fun limit => execAll { functions, limit }
      (invoke { functions, limit } depth) function statements) σ (.ok (.normal, σ')) :=
    h ▸ agrees_execAll function (agreesCall_invoke functions 0 depth) statements σ
  obtain ⟨cost, -, hcost⟩ := hagrees
  refine ⟨cost, fun limit steps hle => ?_⟩
  have h := hcost limit steps (Nat.le_of_add_right_le hle)
  rwa [Costs, if_pos hle] at h

/-! ## Immediate operands -/

variable {c : Generator} {site : Site} {s : SymbolicState} {p p' : Progress}
  {flow : Option SymbolicState}

theorem exists_yields_readOperand (hopcode : site.instruction.opcode.supports .immediate = true)
    (hy : Yields (c.instruction site s) p flow p') :
    ∃ p1 e p2, Yields (c.readOperand site s) p1 e p2 := by
  unfold Generator.instruction at hy
  cases ho : site.instruction.opcode <;> rw [ho] at hopcode hy
  case lda | ldx | ldy =>
    obtain ⟨_, hload, _⟩ := Yields.map_iff.1 hy
    obtain ⟨e, p1, hread, -⟩ := hload.of_bind
    exact ⟨p, e, p1, hread⟩
  case and | ora | eor | cmp | cpx | cpy =>
    obtain ⟨_, hbody, _⟩ := Yields.map_iff.1 hy
    obtain ⟨_, p1, _, hrest⟩ := hbody.of_bind
    obtain ⟨e, p2, hread, -⟩ := hrest.of_bind
    exact ⟨p1, e, p2, hread⟩
  case adc | sbc =>
    obtain ⟨_, hbody, _⟩ := Yields.map_iff.1 hy
    obtain ⟨_, p1, _, hrest⟩ := hbody.of_bind
    obtain ⟨_, p2, _, hrest⟩ := hrest.of_bind
    obtain ⟨e, p3, hread, -⟩ := hrest.of_bind
    exact ⟨p2, e, p3, hread⟩
  all_goals exact absurd hopcode (by decide)

theorem isSome_immediateByte?
    (hmode : site.instruction.mode?.isSome = true) (hy : Yields (c.instruction site s) p flow p')
    {value : Immediate} (hoperand : site.instruction.operand = .immediate value) :
    (c.program.immediateByte? value).isSome = true := by
  have hsupports : site.instruction.opcode.supports .immediate = true := by
    obtain ⟨mode, hmode⟩ := Option.isSome_iff_exists.1 hmode
    rcases Instruction.mode?_cases hmode with ⟨-, huses, -⟩ | ⟨hsupports, hmem⟩
    · rw [hoperand] at huses
      cases huses
    · rw [hoperand] at hmem
      rwa [List.mem_singleton.1 hmem] at hsupports
  obtain ⟨p1, e, p2, hread⟩ := exists_yields_readOperand hsupports hy
  unfold readOperand at hread
  rw [hoperand] at hread
  dsimp only at hread
  cases hbyte : c.program.immediateByte? value with
  | none =>
    rw [hbyte] at hread
    exact absurd hread Yields.not_throw
  | some byte => rfl

/-- The code for an instruction runs in the evaluator, and does to memory what the processor does
when it executes the instruction at its effective address. The state after the instruction shows the
processor after it. -/
theorem instruction_simulates (c : Generator) (site : Site) {s s' : SymbolicState} {p p' : Progress}
    (hi : site.instruction.isAddressed c.program = true)
    (hopcode : site.instruction.opcode ∉ [.jsr, .rts, .rti])
    (hy : Yields (c.instruction site s) p (some s') p') (functions : List FunctionDef) (depth : Nat)
    (function : String) {env : Environment} {core : Core} {base : List UInt8}
    (hs : s.Shows (StandsFor function ⟨env, core.cpu.memory⟩ p.temps) core base) :
    ∃ emitted env' core',
      p'.out.toList = p.out.toList ++ emitted ∧
      (∃ cost, ∀ limit steps, steps + cost ≤ limit →
        (Evaluator.execAll { functions, limit } (Evaluator.invoke { functions, limit } depth)
          function emitted).run.run ⟨env, core.cpu.memory, steps⟩ =
            (.ok .normal, ⟨env', core'.cpu.memory, steps + cost⟩)) ∧
      s'.Shows (StandsFor function ⟨env', core'.cpu.memory⟩ p'.temps) core' base ∧
      core.step (c.program.work? site.instruction core.cpu) site.instruction.opcode = some core' ∧
      ∀ mode offset bytes place next, site.instruction.mode? = some mode →
        c.program.encode site.instruction offset = .ok bytes → core.cpu.HoldsBytes place bytes →
        core.execute site.instruction.opcode mode
          (core.cpu.effectiveAddress mode (place + 1) next) = some core' := by
  -- No loop and no call is in the code, so neither the passes nor the calls allowed matter.
  let H : Host := ⟨0, Evaluator.callUntimed functions 0 depth, function⟩
  let σ : Scene := ⟨env, core.cpu.memory⟩
  have hd : s.Describes (σ.env.known p.untouched) core base :=
    (SymbolicState.shows_iff_describes fun _ _ => standsFor_iff).1 hs
  obtain ⟨σ', hmove, s₁, hs₁, core', hstep, hmatches⟩ :=
    performs_instruction (H := H) hd rfl (fun h => hopcode (by simp [h]))
      (fun h => hopcode (by simp [h])) _ p' hy
  cases hs₁
  obtain ⟨env', memory'⟩ := σ'
  obtain rfl : memory' = core'.cpu.memory := hmatches.memory
  have hmode := Instruction.isSome_mode? hi
  rw [c.program.codeWork?_eq_work? hi (fun _ => isSome_immediateByte? hmode hy)] at hstep
  refine ⟨p.emitted p', env', core', Progress.out_eq_append_emitted hmove.more.out, ?_,
    (SymbolicState.shows_iff_describes fun _ _ => standsFor_iff).2 hmatches.describes, hstep, ?_⟩
  · exact exists_cost_execAll hmove.run
  · intro mode offset bytes place next hmode hencode hholds
    exact Core.execute_of_step hmode hencode hholds hstep next

def countingSite : Site := ⟨"loop", default, 0, ⟨.inc, .indexed (.address 0x20) .x .zeroPage⟩⟩

def countingState : SymbolicState where
  bindings := ⟨.unresolved "", .ofVariable (.merge .x 7), .unresolved "", .unresolved "",
    .unresolved "", .unresolved "", .unresolved ""⟩
  stack := [.byte (.literal 5)]

def countingEnv : Environment := ({} : Environment).set (.merge .x 7) 3

def countingMemory : Memory addressCount :=
  ((Memory.zero addressCount).write 0x8000 0xf6).write 0x8001 0x20

def countingCore : Core := ⟨{ x := 3, memory := countingMemory }, [5, 9]⟩

theorem read_countingMemory (address : UInt16) : countingMemory.read address =
    if address = 0x8001 then 0x20 else if address = 0x8000 then 0xf6 else 0 := by
  have hzero : (Memory.zero addressCount).read address = 0 := by
    simp [Memory.read, Memory.zero]
  rw [countingMemory, Memory.read_write, Memory.read_write, hzero]

theorem countingState_shows :
    countingState.Shows (StandsFor "loop" ⟨countingEnv, countingCore.cpu.memory⟩ 4) countingCore
      [9] := by
  refine (SymbolicState.shows_iff_describes fun _ _ => standsFor_iff (p := { temps := 4 })).2
    ⟨?_, ?_, rfl⟩
  · intro l
    rcases l with r | f
    · cases r with
      | x =>
        refine Binding.holds_ofVariable (Environment.known_eq_some trivial ?_)
        rw [countingEnv, Environment.get?_set, if_pos rfl]
        rfl
      | a | y => exact Binding.holds_unresolved ""
    · cases f <;> exact Binding.holds_unresolved ""
  · exact Binding.holds_literal fun h => by cases h

theorem instruction_simulates_counting :
    countingState.Shows (StandsFor "loop" ⟨countingEnv, countingCore.cpu.memory⟩ 4)
      countingCore [9] ∧
    ∃ s' p' env' core',
      Yields ((default : Generator).instruction countingSite countingState) { temps := 4 }
        (some s') p' ∧
      (∃ cost, ∀ limit steps, steps + cost ≤ limit →
        (Evaluator.execAll { functions := [], limit }
          (Evaluator.invoke { functions := [], limit } 0)
          "loop" p'.out.toList).run.run ⟨countingEnv, countingMemory, steps⟩ =
            (.ok .normal, ⟨env', countingMemory.write 0x23 1, steps + cost⟩)) ∧
      s'.Shows (StandsFor "loop" ⟨env', countingMemory.write 0x23 1⟩ p'.temps) core' [9] ∧
      countingCore.execute .inc .zeroPageX
        (countingCore.cpu.effectiveAddress .zeroPageX 0x8001 0x8002) = some core' := by
  refine ⟨countingState_shows, ?_⟩
  obtain ⟨s', p', hy⟩ : ∃ s' p',
      Yields ((default : Generator).instruction countingSite countingState) { temps := 4 }
        (some s') p' :=
    ⟨_, _, rfl⟩
  obtain ⟨emitted, env', core', hout, hrun, hshows, hstep, hexecute⟩ :=
    instruction_simulates default countingSite (by decide) (by decide) hy [] 0 "loop"
      countingState_shows
  have hmemory : core'.cpu.memory = countingMemory.write 0x23 1 := by
    cases hstep
    show countingMemory.write 0x23 (countingMemory.read 0x23 + 1) = _
    rw [read_countingMemory]
    rfl
  have hholds : countingCore.cpu.HoldsBytes 0x8000 [0xf6, 0x20] :=
    ⟨read_countingMemory 0x8000, read_countingMemory 0x8001, trivial⟩
  obtain rfl : emitted = p'.out.toList := hout.symm
  rw [← hmemory]
  exact ⟨s', p', env', core', hy, hrun, hshows,
    hexecute .zeroPageX 0 [0xf6, 0x20] 0x8000 0x8002 rfl rfl hholds⟩

end Lift6502
