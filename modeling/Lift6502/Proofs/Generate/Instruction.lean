import Lift6502.Proofs.Generate.Operand
import Lift6502.Proofs.Run.Effects

/-!
# Code for one instruction

If a symbolic state describes the processor, the state after an instruction describes it after the
instruction has run.
-/

namespace Lift6502

open Expression Gen Generator SymbolicState HasValue

variable {byte : UInt8} {r : Register} {s' : SymbolicState} {changed changed' : List Location}
  {m : Gen SymbolicState} {known : Known}

/-- Some locations have got the values that a processor has; the others are as before. -/
structure Updated (known : Known) (s s' : SymbolicState) (c : Cpu) (changed : List Location) :
    Prop where
  stack : s'.stack = s.stack
  new : ∀ l ∈ changed, (s'.get l).Holds known l (c.value l)
  old : ∀ l, l ∉ changed → s'.get l = s.get l

namespace Updated

variable {known known' : Known} {s s' s'' : SymbolicState} {c : Cpu}
  {changed changed' : List Location} {core : Core} {base : List UInt8}

theorem refl (known : Known) (s : SymbolicState) (c : Cpu) : Updated known s s c [] :=
  ⟨rfl, fun _ hl => absurd hl List.not_mem_nil, fun _ _ => rfl⟩

theorem trans (h : Updated known s s' c changed) (h' : Updated known' s' s'' c changed')
    (hk : known.Le known') : Updated known' s s'' c (changed ++ changed') := by
  refine ⟨h'.stack.trans h.stack, fun l hl => ?_, fun l hl => ?_⟩
  · by_cases hl' : l ∈ changed'
    · exact h'.new l hl'
    · rw [h'.old l hl']
      rcases List.mem_append.1 hl with hl | hl
      · exact (h.new l hl).mono hk
      · exact absurd hl hl'
  · rw [List.mem_append, not_or] at hl
    rw [h'.old l hl.2, h.old l hl.1]

theorem describes (core' : Core) (h : Updated known s s' core'.cpu changed)
    (hd : s.Describes known core base) (hstack : core'.stack = core.stack)
    (hsame : ∀ l, l ∉ changed → core'.cpu.value l = core.cpu.value l) :
    s'.Describes known core' base := by
  refine hd.update h.stack hstack fun l => ?_
  by_cases hl : l ∈ changed
  · exact .inl (h.new l hl)
  · exact .inr ⟨h.old l hl, hsame l hl⟩

end Updated

variable {inUse : Progress → Issue} [Counts inUse] {c : Generator} {H : Host} {p : Progress}
  {σ : Scene} {s : SymbolicState} {core : Core} {base : List UInt8} {site : Site} {e : Expression}
  {cpu : Cpu}

theorem performs_bind {l : Location} (cpu : Cpu)
    (h : e.HasValue (σ.env.known (inUse p)) (cpu.value l)) :
    Performs inUse H (c.bind s l e) p σ fun r p' σ' =>
      Updated (σ'.env.known (inUse p')) s r.1 cpu [l] ∧ Kept inUse σ (cpu.value l) r.2 p' σ' := by
  unfold Generator.bind
  refine .bind (performs_withinLimit h) fun e' p' σ' _ ⟨hmemory, he'⟩ =>
    .pure ⟨⟨?_, ?_, ?_⟩, hmemory, he'⟩
  · exact stack_set s l _
  · intro k hk
    rw [List.mem_singleton.1 hk, get_set, if_pos rfl]
    exact Binding.holds_ofExpression (cpu.fits_value l) he'
  · intro k hk
    rw [get_set, if_neg (by simpa using hk)]

theorem performs_bindAll (cpu : Cpu) {values : List (Location × Expression)}
    (h : ∀ a ∈ values, a.2.HasValue (σ.env.known (inUse p)) (cpu.value a.1)) :
    Performs inUse H (c.bindAll s values) p σ fun s' p' σ' => σ'.memory = σ.memory ∧
        Updated (σ'.env.known (inUse p')) s s' cpu (values.map (·.1)) := by
  unfold bindAll
  induction values generalizing s p σ with
  | nil => exact .pure ⟨rfl, .refl _ s cpu⟩
  | cons a rest ih =>
    rw [List.foldlM_cons]
    refine .bind (Q := fun s' p' σ' => σ'.memory = σ.memory ∧
        Updated (σ'.env.known (inUse p')) s s' cpu [a.1]) ?_
          fun s1 p1 σ1 hmove ⟨hmemory1, hs1⟩ => ?_
    · exact .bind (performs_bind cpu (h a List.mem_cons_self))
        fun r p1 σ1 _ ⟨hs1, hmemory1, _⟩ => .pure ⟨hmemory1, hs1⟩
    · refine (ih fun b hb => ?_).mono fun s' p' σ' hmove' ⟨hmemory', hs'⟩ => ?_
      · exact (h b (List.mem_cons_of_mem a hb)).mono hmove.known_le
      · exact ⟨hmemory'.trans hmemory1, hs1.trans hs' hmove'.known_le⟩

def Cpu.ShowsResult (cpu : Cpu) (byte : UInt8) : Prop :=
  cpu.status.zero = (byte == 0) ∧ cpu.status.negative = Cpu.isNegative byte

theorem performs_setResultFlags (cpu : Cpu) (hcpu : cpu.ShowsResult byte)
    (h : e.HasValue (σ.env.known (inUse p)) byte.toUInt32) :
    Performs inUse H (c.setResultFlags s e) p σ fun s' p' σ' =>
      σ'.memory = σ.memory ∧ Updated (σ'.env.known (inUse p')) s s' cpu [.z, .n] := by
  refine performs_bindAll cpu fun a ha => ?_
  simp only [List.mem_cons, List.not_mem_nil, or_false] at ha
  rcases ha with rfl | rfl
  · show (Arithmetic.zero e).HasValue _ cpu.status.zero.toUInt32
    rw [hcpu.1]
    exact h.zero
  · show (Arithmetic.negative e).HasValue _ cpu.status.negative.toUInt32
    rw [hcpu.2]
    exact h.negative

theorem performs_putRegister (cpu : Cpu) (hr : cpu.register r = byte) (hcpu : cpu.ShowsResult byte)
    (h : e.HasValue (σ.env.known (inUse p)) byte.toUInt32) :
    Performs inUse H (c.putRegister s r e) p σ fun s' p' σ' => σ'.memory = σ.memory ∧
        Updated (σ'.env.known (inUse p')) s s' cpu [.register r, .z, .n] := by
  subst hr
  unfold putRegister
  refine .bind (performs_bind cpu (l := .register r) h)
    fun a p1 σ1 hmove ⟨hs1, hmemory1, he'⟩ => ?_
  obtain ⟨s1, e'⟩ := a
  refine (performs_setResultFlags cpu hcpu he').mono fun s' p' σ' hmove' ⟨hmemory', hs'⟩ => ?_
  exact ⟨hmemory'.trans hmemory1, hs1.trans hs' hmove'.known_le⟩

/-! ## Instructions that change registers, flags or a byte of memory -/

/-- The instruction has run, and a state describes the processor after it. -/
def After (inUse : Progress → Issue) (work? : Option Work) (opcode : Opcode) (core : Core)
    (base : List UInt8) (s' : SymbolicState) (p' : Progress) (σ' : Scene) : Prop :=
  ∃ core', core.step work? opcode = some core' ∧ Matches inUse core' base s' p' σ'

variable {work? : Option Work} {opcode : Opcode} {i : Instruction}

omit [Counts inUse] in
theorem After.of_updated {p' : Progress} {σ' : Scene}
    (hd : s.Describes (σ'.env.known (inUse p')) core base)
    (hstep : core.step work? opcode = some { core with cpu })
    (hu : Updated (σ'.env.known (inUse p')) s s' cpu changed) (hmemory : σ'.memory = cpu.memory)
    (hsame : ∀ l, l ∉ changed → cpu.value l = core.cpu.value l) :
    After inUse work? opcode core base s' p' σ' :=
  ⟨{ core with cpu }, hstep, hu.describes { core with cpu } hd rfl hsame, hmemory⟩

theorem Performs.after {s1 : SymbolicState}
    (h : Performs inUse H m p σ fun s' p' σ' => σ'.memory = σ.memory ∧
      Updated (σ'.env.known (inUse p')) s1 s' cpu changed')
    (hd : s.Describes (σ.env.known (inUse p)) core base)
    (hs : Updated (σ.env.known (inUse p)) s s1 cpu changed)
    (hstep : core.step work? opcode = some { core with cpu }) (hmemory : σ.memory = cpu.memory)
    (hsame : ∀ l, l ∉ changed ++ changed' → cpu.value l = core.cpu.value l) :
    Performs inUse H m p σ (After inUse work? opcode core base) :=
  h.mono fun _ _ _ hmove ⟨hmemory', hs'⟩ => .of_updated (hd.mono hmove.known_le) hstep
    (hs.trans hs' hmove.known_le) (hmemory'.trans hmemory) hsame

namespace Cpu

theorem showsResult_setRegister (c : Cpu) (r : Register) (byte : UInt8) :
    (c.setRegister r byte).ShowsResult byte := by
  cases r <;> exact ⟨rfl, rfl⟩

def setFlag (c : Cpu) (f : Flag) (b : Bool) : Cpu :=
  { c with
    status :=
      match f with
      | .carry => { c.status with carry := b }
      | .zero => { c.status with zero := b }
      | .negative => { c.status with negative := b }
      | .overflow => { c.status with overflow := b } }

end Cpu

theorem mode_ne_accumulator {mode : AddressingMode}
    (huses : i.operand.usesMemory = true) (hmode : i.mode? = some mode) : mode ≠ .accumulator := by
  rintro rfl
  exact Instruction.mode_of_usesMemory huses hmode (by simp)

theorem mode_eq_accumulator (hshift : i.opcode ∈ [.asl, .lsr, .rol, .ror])
    (huses : i.operand.usesMemory = false) : i.mode?.getD .accumulator = .accumulator := by
  have hmodes : ∀ o ∈ [Opcode.asl, .lsr, .rol, .ror],
      Instruction.firstMode o [.accumulator, .implied] = some .accumulator ∧
      Instruction.firstMode o [.accumulator] = some .accumulator ∧
      Instruction.firstMode o [.immediate] = none := by decide
  unfold Instruction.mode?
  cases hoperand : i.operand <;> rw [hoperand] at huses
  case implied => rw [(hmodes _ hshift).1]; rfl
  case accumulator => rw [(hmodes _ hshift).2.1]; rfl
  case immediate => rw [(hmodes _ hshift).2.2]; rfl
  all_goals cases huses

theorem Expression.HasValue.statusBit (h : e.HasValue known byte.toUInt32) (f : Flag) :
    (Arithmetic.statusBit e f.statusBit).HasValue known ((Status.ofByte byte).get f).toUInt32 := by
  cases f with
  | carry => exact h.testBit 0x01
  | zero => exact h.testBit 0x02
  | negative => exact h.testBit 0x80
  | overflow => exact h.testBit 0x40

omit [Counts inUse] in
theorem performs_emit_store {address value : Expression} {a : UInt16} {b : UInt8}
    (ha : address.HasValue (σ.env.known (inUse p)) a.toUInt32)
    (hb : value.HasValue (σ.env.known (inUse p)) b.toUInt32) :
    Performs inUse H (emit (.store address value)) p σ fun _ _ σ' =>
      σ'.memory = σ.memory.write a b := by
  have hinside : a.toUInt32.toNat < addressCount := by
    rw [UInt16.toNat_toUInt32]
    exact a.toNat_lt
  have hbyte : ¬ (0xff : UInt32) < b.toUInt32 := by
    rw [UInt32.lt_iff_toNat_lt, UInt8.toNat_toUInt32]
    have hb := b.toNat_lt
    show ¬ 255 < b.toNat
    omega
  have hstore : σ.store H.function address value =
      .ok { σ with memory := σ.memory.write a b } := by
    unfold Scene.store Scene.value
    rw [ha.eval_known, hb.eval_known]
    show (if inside : a.toUInt32.toNat < addressCount then
      (if 0xff < b.toUInt32 then .error (.notAByte H.function b.toUInt32)
       else .ok { σ with
        memory := σ.memory.set a.toUInt32.toNat b.toUInt32.toUInt8 inside })
      else .error (.addressOutOfRange H.function a.toUInt32) : Except EvalError Scene) = _
    rw [dif_pos hinside, if_neg hbyte]
    simp only [UInt8.toUInt8_toUInt32, UInt16.toNat_toUInt32]
    rfl
  refine performs_emit { σ with memory := σ.memory.write a b } ?_ ?_ ?_
  · rw [Host.run_singleton, Statement.run, hstore]
    rfl
  · exact .refl
  · rfl

theorem performs_putByte (hm : Matches inUse core base s p σ)
    (he : e.HasValue (σ.env.known (inUse p)) byte.toUInt32) :
    Performs inUse H (c.putRegister s r e) p σ
      (Matches inUse { core with cpu := core.cpu.setRegister r byte } base) := by
  refine (performs_putRegister _ (core.cpu.register_setRegister r byte)
    (core.cpu.showsResult_setRegister r byte) he).mono fun s' p' σ' hmove ⟨hmemory', hs'⟩ => ?_
  refine ⟨hs'.describes { core with cpu := core.cpu.setRegister r byte }
    (hm.mono hmove hmemory').describes rfl fun l hl => core.cpu.value_setRegister r byte hl, ?_⟩
  rw [hmemory', hm.memory, Cpu.memory_setRegister]

theorem performs_setRegister (hm : Matches inUse core base s p σ)
    (hstep : core.step work? opcode = some { core with cpu := core.cpu.setRegister r byte })
    (he : e.HasValue (σ.env.known (inUse p)) byte.toUInt32) :
    Performs inUse H (c.putRegister s r e) p σ (After inUse work? opcode core base) :=
  (performs_putByte hm he).mono fun _ _ _ _ h => ⟨_, hstep, h⟩

variable (hm : Matches inUse core base s p σ) {r : Register} {change : Expression → Expression}
  {result : UInt8 → UInt8}

include hm

theorem performs_loadRegister (hstep : ∀ w, core.step (some w) opcode =
      some { core with cpu := core.cpu.setRegister r w.byte }) :
    Performs inUse H (c.loadRegister site s r) p σ
      (After inUse (c.program.codeWork? site.instruction core.cpu) opcode core base) := by
  unfold loadRegister
  refine .bind (performs_readOperand hm) fun e p1 σ1 hmove ⟨w, hw, hmemory1, he⟩ => ?_
  rw [hw]
  exact performs_setRegister (hm.mono hmove hmemory1) (hstep w) he

theorem performs_transfer {source target : Register} (hstep : core.step work? opcode =
      some { core with cpu := core.cpu.setRegister target (core.cpu.register source) }) :
    Performs inUse H (c.transfer site s source target) p σ (After inUse work? opcode core base) :=
  performs_read_bind hm fun _ he => performs_setRegister hm hstep he

theorem performs_modifyRegister
    (hchange : ∀ (known : Known) (e : Expression) (b : UInt8), e.HasValue known b.toUInt32 →
      (change e).HasValue known (result b).toUInt32) (hstep : core.step work? opcode =
      some { core with cpu := core.cpu.setRegister r (result (core.cpu.register r)) }) :
    Performs inUse H (c.modifyRegister site s r change) p σ (After inUse work? opcode core base) :=
  performs_read_bind hm fun e he =>
    performs_setRegister hm hstep (hchange _ e (core.cpu.register r) he)

theorem performs_logical {op : BinOp} {result : UInt8 → UInt8 → UInt8}
    (hop : ¬ (op = .and ∨ op = .or))
    (hresult : ∀ a b : UInt8, (result a b).toUInt32 = op.eval a.toUInt32 b.toUInt32)
    (hstep : ∀ w, core.step (some w) opcode =
      some { core with cpu := core.cpu.setRegister .a (result core.cpu.a w.byte) }) :
    Performs inUse H (c.logical site s op) p σ
      (After inUse (c.program.codeWork? site.instruction core.cpu) opcode core base) := by
  unfold logical
  refine performs_read_bind hm fun a ha => ?_
  refine .bind (performs_readOperand hm) fun e p1 σ1 hmove ⟨w, hw, hmemory1, he⟩ => ?_
  rw [hw]
  refine performs_setRegister (hm.mono hmove hmemory1) (hstep w) ?_
  rw [hresult]
  exact number op hop (ha.mono hmove.known_le) he

theorem performs_compare (hstep : ∀ w, core.step (some w) opcode =
      some { core with cpu := core.cpu.compare (core.cpu.register r) w.byte }) :
    Performs inUse H (c.compare site s r) p σ
      (After inUse (c.program.codeWork? site.instruction core.cpu) opcode core base) := by
  unfold Generator.compare
  refine performs_read_bind hm fun a ha => ?_
  refine .bind (performs_readOperand hm) fun e p1 σ1 hmove ⟨w, hw, hmemory1, he⟩ => ?_
  rw [hw]
  have ha := ha.mono hmove.known_le
  have hm1 := hm.mono hmove hmemory1
  refine (performs_bindAll (core.cpu.compare (core.cpu.register r) w.byte) fun b hb => ?_).after
    hm1.describes (.refl _ s _) (hstep w) hm1.memory ?_
  · simp only [List.mem_cons, List.not_mem_nil, or_false] at hb
    rcases hb with rfl | rfl | rfl
    · exact atLeast ha he
    · exact compareZero ha he
    · exact compareNegative ha he
  · rintro (q | f) hl
    · cases q <;> rfl
    · cases f <;> first | rfl | exact absurd (by simp) hl

theorem performs_store (hstep : ∀ w, core.step (some w) opcode =
      some { core with cpu := core.cpu.write w.address (core.cpu.register r) }) :
    Performs inUse H (c.store site s r) p σ
      (After inUse (c.program.codeWork? site.instruction core.cpu) opcode core base) := by
  unfold Generator.store
  refine performs_read_bind hm fun value hvalue => ?_
  refine .bind (performs_address hm)
    fun e p1 σ1 hmove ⟨w, hw, _, _, _, hmemory1, he⟩ => ?_
  rw [hw]
  refine .bind (performs_emit_store he (hvalue.mono hmove.known_le))
    fun _ p2 σ2 hmove2 hσ2 => .pure ?_
  refine .of_updated ((hm.mono hmove hmemory1).describes.mono hmove2.known_le) (hstep w)
    (.refl _ s _) ?_ ?_
  · rw [hσ2, hmemory1, hm.memory]
    rfl
  · rintro (q | f) -
    · cases q <;> rfl
    · cases f <;> rfl

theorem performs_modifyMemory
    (hchange : ∀ (known : Known) (e : Expression) (b : UInt8), (σ.env.known (inUse p)).Le known →
      e.HasValue known b.toUInt32 → (change e).HasValue known (result b).toUInt32) :
    Performs inUse H (c.modifyMemory site s change) p σ fun r p' σ' =>
      ∃ w, c.program.codeWork? site.instruction core.cpu = some w ∧
        site.instruction.operand.usesMemory = true ∧ site.instruction.mode? = some w.mode ∧
        σ'.memory = core.cpu.memory.write w.address (result w.byte) ∧
        r.1.HasValue (σ'.env.known (inUse p')) w.byte.toUInt32 ∧
        r.2.HasValue (σ'.env.known (inUse p')) (result w.byte).toUInt32 := by
  unfold modifyMemory
  refine .bind (performs_address hm)
    fun address p1 σ1 hmove1 ⟨w, hw, hbyte, huses, hmode, hmemory1, haddress⟩ => ?_
  refine .bind (performs_load_work (hm.mono hmove1 hmemory1) hbyte haddress)
    fun old p2 σ2 hmove2 ⟨hmemory2, hold⟩ => ?_
  refine .bind (performs_withinLimit
    (hchange _ old w.byte (hmove1.known_le.trans hmove2.known_le) hold))
    fun value p3 σ3 hmove3 ⟨hmemory3, hvalue⟩ => ?_
  refine .bind (performs_emit_store (haddress.mono (hmove2.known_le.trans hmove3.known_le)) hvalue)
    fun _ p4 σ4 hmove4 hσ4 => .pure ⟨w, hw, huses, hmode, ?_, ?_, ?_⟩
  · rw [hσ4, hmemory3, hmemory2, hmemory1, hm.memory]
  · exact hold.mono (hmove3.known_le.trans hmove4.known_le)
  · exact hvalue.mono hmove4.known_le

theorem performs_countInMemory
    (hchange : ∀ (known : Known) (e : Expression) (b : UInt8), e.HasValue known b.toUInt32 →
      (change e).HasValue known (result b).toUInt32)
    (hstep : ∀ w : Work, w.mode ≠ .accumulator → core.step (some w) opcode = some { core with
      cpu := core.cpu.modifyByte w.mode w.address w.byte fun b carry => (result b, carry) }) :
    Performs inUse H (c.countInMemory site s change) p σ
      (After inUse (c.program.codeWork? site.instruction core.cpu) opcode core base) := by
  unfold countInMemory
  refine .bind (performs_modifyMemory hm fun known e b _ he => hchange known e b he)
    fun r p1 σ1 hmove ⟨w, hw, huses, hmode, hmemory1, _, hr⟩ => ?_
  rw [hw]
  have hne := mode_ne_accumulator huses hmode
  have hcpu := core.cpu.modifyByte_of_memory hne w.address w.byte fun b carry => (result b, carry)
  refine (performs_setResultFlags
    (core.cpu.modifyByte w.mode w.address w.byte fun b carry => (result b, carry)) ?_ hr).after
    (hm.describes.mono hmove.known_le) (.refl _ s _) (hstep w hne) ?_ ?_ <;> rw [hcpu]
  · exact ⟨rfl, rfl⟩
  · exact hmemory1
  · rintro (q | f) hl
    · cases q <;> rfl
    · cases f <;> first | rfl | exact absurd (by simp) hl

omit [Counts inUse] in
/-- The carry that goes in at a shift; a shift that takes none in has the same result with any. -/
theorem performs_shiftedIn_bind {β : Type} {kind : Arithmetic.Shift} {f : Expression → Gen β}
    {R : β → Progress → Scene → Prop}
    (hf : ∀ e (carry : Bool), e.HasValue (σ.env.known (inUse p)) carry.toUInt32 →
      (∀ b, kind.change b carry = kind.change b core.cpu.status.carry) →
      Performs inUse H (f e) p σ R) : Performs inUse H (shiftedIn site s kind >>= f) p σ R := by
  unfold shiftedIn
  cases kind with
  | rol | ror => exact performs_read_bind hm fun e he => hf e _ he fun b => rfl
  | asl | lsr =>
    rw [pure_bind]
    exact hf (.bool false) false (.bool false) fun b => rfl

theorem performs_shift (kind : Arithmetic.Shift)
    (hshift : site.instruction.opcode ∈ [.asl, .lsr, .rol, .ror])
    (hstep : ∀ w, core.step (some w) opcode = some { core with
      cpu := core.cpu.modifyByte w.mode w.address w.byte kind.change }) :
    Performs inUse H (c.shift site s kind) p σ
      (After inUse (c.program.codeWork? site.instruction core.cpu) opcode core base) := by
  unfold Generator.shift
  refine performs_shiftedIn_bind hm fun e carry he hcarry => ?_
  by_cases huses : site.instruction.operand.usesMemory = true
  · rw [if_pos huses]
    refine .bind (performs_modifyMemory hm
      fun known old b hk hold => shifted kind hold (he.mono hk))
      fun r p1 σ1 hmove ⟨w, hw, _, hmode, hmemory1, hold, hr⟩ => ?_
    obtain ⟨old, value⟩ := r
    rw [hw]
    rw [hcarry] at hmemory1 hr
    have hcpu := core.cpu.modifyByte_of_memory (mode_ne_accumulator huses hmode) w.address w.byte
      kind.change
    let cpu := core.cpu.modifyByte w.mode w.address w.byte kind.change
    have hout : (Arithmetic.shift kind old e).2.HasValue (σ1.env.known (inUse p1))
        (cpu.value .c) := by
      show (Arithmetic.shift kind old e).2.HasValue _
        (core.cpu.modifyByte w.mode w.address w.byte kind.change).status.carry.toUInt32
      rw [hcpu]
      exact hold.shiftedOut kind core.cpu.status.carry
    refine .bind (performs_bind cpu hout) fun a p2 σ2 hmove2 ⟨hs2, hmemory2, _⟩ => ?_
    refine (performs_setResultFlags cpu ?_ (hr.mono hmove2.known_le)).after
      (hm.describes.mono (hmove.known_le.trans hmove2.known_le)) hs2 (hstep w) ?_ ?_ <;>
      dsimp only [cpu] <;>
      rw [hcpu]
    · exact ⟨rfl, rfl⟩
    · exact hmemory2.trans hmemory1
    · rintro (q | f) hl
      · cases q <;> rfl
      · cases f <;> first | rfl | exact absurd (by simp) hl
  · rw [if_neg huses]
    obtain ⟨w, hw, hmode⟩ := c.program.codeWork?_of_usesMemory_eq_false
      (i := site.instruction) (by simpa using huses) core.cpu
    rw [mode_eq_accumulator hshift (by simpa using huses)] at hmode
    rw [hw]
    refine performs_read_bind hm fun a ha => ?_
    let cpu := core.cpu.modifyByte w.mode w.address w.byte kind.change
    have hcpu : cpu = (core.cpu.setCarry (kind.change core.cpu.a core.cpu.status.carry).2).setA
        (kind.change core.cpu.a core.cpu.status.carry).1 := by
      show core.cpu.modifyByte w.mode w.address w.byte kind.change = _
      rw [hmode]
      rfl
    have hout : (Arithmetic.shift kind a e).2.HasValue (σ.env.known (inUse p)) (cpu.value .c) := by
      rw [hcpu]
      exact shiftedOut kind ha core.cpu.status.carry
    have hresult := shifted kind ha he
    rw [hcarry] at hresult
    refine .bind (performs_bind cpu hout) fun b p2 σ2 hmove2 ⟨hs2, hmemory2, _⟩ => ?_
    have hm2 := hm.mono hmove2 hmemory2
    refine (performs_putRegister cpu (r := .a) ?_ ?_ (hresult.mono hmove2.known_le)).after
      hm2.describes hs2 (hstep w) ?_ ?_ <;> rw [hcpu]
    · rfl
    · exact ⟨rfl, rfl⟩
    · exact hm2.memory
    · rintro (q | f) hl
      · cases q <;> first | rfl | exact absurd (by simp) hl
      · cases f <;> first | rfl | exact absurd (by simp) hl

theorem performs_addWithCarry (inverted : Bool) (hstep : ∀ w, core.step (some w) opcode =
      some { core with cpu := core.cpu.add (if inverted then w.byte ^^^ 0xff else w.byte) }) :
    Performs inUse H (c.addWithCarry site s inverted) p σ
      (After inUse (c.program.codeWork? site.instruction core.cpu) opcode core base) := by
  unfold addWithCarry
  refine performs_read_bind hm fun a ha => ?_
  refine performs_read_bind hm fun carry hcarry => ?_
  refine .bind (performs_readOperand hm)
    fun operand p1 σ1 hmove1 ⟨w, hw, hmemory1, hoperand⟩ => ?_
  rw [hw]
  let added := if inverted then w.byte ^^^ 0xff else w.byte
  refine .bind (Q := Kept inUse σ1 added.toUInt32) ?_
    fun operand p2 σ2 hmove2 ⟨hmemory2, hoperand⟩ => ?_
  · cases inverted with
    | true => exact performs_withinLimit hoperand.invert
    | false => exact .pure ⟨rfl, hoperand⟩
  have hk2 := hmove1.known_le.trans hmove2.known_le
  have ha2 := ha.mono hk2
  refine .bind (performs_withinLimit (sum ha2 hoperand (hcarry.mono hk2)))
    fun sum p3 σ3 hmove3 ⟨hmemory3, hsum⟩ => ?_
  let cpu := core.cpu.add added
  have hlow : sum.lowByte.HasValue (σ3.env.known (inUse p3)) (cpu.value .a) := by
    have h := hsum.lowByte
    rw [UInt16.toUInt8_toUInt32] at h
    exact h
  refine .bind (performs_bind cpu hlow) fun r p4 σ4 hmove4 ⟨hs4, hmemory4, hr⟩ => ?_
  obtain ⟨s4, result⟩ := r
  have hk4 := hmove3.known_le.trans hmove4.known_le
  refine .bind (performs_bindAll cpu ?_) fun s5 p5 σ5 hmove5 ⟨hmemory5, hs5⟩ => ?_
  · intro b hb
    simp only [List.mem_cons, List.not_mem_nil, or_false] at hb
    rcases hb with rfl | rfl
    · exact carryOut (hsum.mono hmove4.known_le)
    · exact overflow (ha2.mono hk4) (hoperand.mono hk4) hr
  refine (performs_setResultFlags cpu ⟨rfl, rfl⟩ (hr.mono hmove5.known_le)).after
    (hm.describes.mono ((hk2.trans hk4).trans hmove5.known_le)) (hs4.trans hs5 hmove5.known_le)
    (hstep w) ?_ ?_
  · rw [hmemory5, hmemory4, hmemory3, hmemory2, hmemory1, hm.memory]
    rfl
  · rintro (q | f) hl
    · cases q <;> first | rfl | exact absurd (by simp) hl
    · cases f <;> first | rfl | exact absurd (by simp) hl

theorem performs_bitTest
    (hstep : ∀ w, core.step (some w) opcode = some { core with
      cpu := { core.cpu with status := { core.cpu.status with
        zero := core.cpu.a &&& w.byte == 0, negative := Cpu.isNegative w.byte
        overflow := w.byte &&& 0x40 != 0 } } }) :
    Performs inUse H (c.bitTest site s) p σ
      (After inUse (c.program.codeWork? site.instruction core.cpu) opcode core base) := by
  unfold Generator.bitTest
  refine performs_read_bind hm fun a ha => ?_
  refine .bind (performs_address hm)
    fun address p1 σ1 hmove1 ⟨w, hw, hbyte, _, _, hmemory1, haddress⟩ => ?_
  rw [hw]
  have hm1 := hm.mono hmove1 hmemory1
  refine .bind (performs_load_work hm1 hbyte haddress)
    fun operand p2 σ2 hmove2 ⟨hmemory2, hoperand⟩ => ?_
  have hm2 := hm1.mono hmove2 hmemory2
  have ha := ha.mono (hmove1.known_le.trans hmove2.known_le)
  let cpu : Cpu := { core.cpu with status := { core.cpu.status with
    zero := core.cpu.a &&& w.byte == 0, negative := Cpu.isNegative w.byte
    overflow := w.byte &&& 0x40 != 0 } }
  refine (performs_bindAll cpu fun b hb => ?_).after hm2.describes (.refl _ s _) (hstep w)
    hm2.memory ?_
  · simp only [List.mem_cons, List.not_mem_nil, or_false] at hb
    rcases hb with rfl | rfl | rfl
    · refine zero ?_
      rw [UInt8.toUInt32_and]
      exact number .bitAnd (by decide) ha hoperand
    · exact hoperand.negative
    · exact hoperand.testBit 0x40
  · rintro (q | f) hl
    · cases q <;> rfl
    · cases f <;> first | rfl | exact absurd (by simp) hl

theorem performs_pullAccumulator :
    Performs inUse H (c.pullAccumulator site s) p σ (After inUse work? .pla core base) := by
  unfold pullAccumulator pop?
  rcases hstack : s.stack with _ | ⟨entry, rest⟩
  · exact .throw
  have hbytes := hm.describes.stack
  rw [hstack] at hbytes
  obtain ⟨byte, bytes, hcore, hentry, hrest⟩ := hbytes.of_cons
  have hstep : core.step work? .pla =
      some { cpu := core.cpu.setRegister .a byte, stack := bytes } := by
    rw [Core.step, hcore]
    rfl
  have hd' : SymbolicState.Describes (σ.env.known (inUse p)) { s with stack := rest }
      { core with stack := bytes } base := ⟨hm.describes.location, hrest⟩
  rcases entry with b | flags
  · dsimp only
    rcases hb : b.expression? .a with _ | e
    · -- A byte without a value leaves the accumulator and its flags without one.
      have hlost : ∀ known l w, b.Holds known l w := by
        intro known l w e he
        cases b <;> cases hb
        cases he
      refine .pure ⟨_, hstep, ?_, ?_⟩
      · refine hd'.update (stack_setAll _ _) rfl fun l => ?_
        rcases get_setAll_cases { s with stack := rest }
          [(Location.a, b), (.z, b), (.n, b)] l with hl | ⟨hnot, hl⟩
        · simp only [List.mem_cons, Prod.mk.injEq, List.not_mem_nil, or_false] at hl
          rcases hl with ⟨_, hl⟩ | ⟨_, hl⟩ | ⟨_, hl⟩ <;> rw [hl] <;> exact .inl (hlost _ _ _)
        · refine .inr ⟨hl, core.cpu.value_setRegister .a byte fun hmem => ?_⟩
          simp only [List.mem_cons, List.not_mem_nil, or_false] at hmem
          rcases hmem with rfl | rfl | rfl <;> exact hnot b (by simp [Location.a])
      · rw [hm.memory]
        exact (core.cpu.memory_setRegister .a byte).symm
    · exact (performs_putByte ⟨hd', hm.memory⟩ (hentry e hb)).mono fun _ _ _ _ h => ⟨_, hstep, h⟩
  · exact .throw

theorem performs_pullStatus :
    Performs inUse H (pullStatus site s) p σ (After inUse work? .plp core base) := by
  unfold pullStatus pop?
  rcases hstack : s.stack with _ | ⟨entry, rest⟩
  · exact .throw
  have hbytes := hm.describes.stack
  rw [hstack] at hbytes
  obtain ⟨byte, bytes, hcore, hentry, hrest⟩ := hbytes.of_cons
  let core' : Core := { cpu := { core.cpu with status := .ofByte byte }, stack := bytes }
  have hstep : core.step work? .plp = some core' := by
    rw [Core.step, hcore]
  have hd' : SymbolicState.Describes (σ.env.known (inUse p)) { s with stack := rest }
      { core with stack := bytes } base := ⟨hm.describes.location, hrest⟩
  -- Every flag gets a new binding, and the registers stay.
  have hset : ∀ {known : Known} {bs : List (Location × Binding)},
      (σ.env.known (inUse p)).Le known → (∀ f, ∃ b, (Location.flag f, b) ∈ bs) →
      (∀ l b, (l, b) ∈ bs → ∃ f, l = .flag f ∧
        b.Holds known (.flag f) ((Status.ofByte byte).get f).toUInt32) →
      (setAll { s with stack := rest } bs).Describes known core' base := by
    intro known bs hk hall hbs
    refine (hd'.mono hk).update (stack_setAll _ _) rfl fun l => ?_
    rcases get_setAll_cases { s with stack := rest } bs l with hl | ⟨hnot, hl⟩
    · obtain ⟨f, rfl, hb⟩ := hbs _ _ hl
      exact .inl hb
    · refine .inr ⟨hl, ?_⟩
      rcases l with q | f
      · cases q <;> rfl
      · obtain ⟨b, hb⟩ := hall f
        exact absurd hb (hnot b)
  rcases entry with b | flags
  · dsimp only
    rcases hb : b.expression? .a with _ | e
    · exact .throw
    · refine .bind (performs_stableValue (hentry e hb))
        fun status p1 σ1 hmove ⟨hmemory1, hstatus⟩ => ?_
      refine .pure ⟨core', hstep, hset hmove.known_le (fun f => ?_) fun l b hl => ?_,
        hmemory1.trans hm.memory⟩
      · exact ⟨_, List.mem_map.2 ⟨f, Flag.mem_all f, rfl⟩⟩
      · obtain ⟨f, _, hf⟩ := List.mem_map.1 hl
        cases hf
        exact ⟨f, rfl, Binding.holds_ofExpression (fun _ => ⟨_, rfl⟩) (hstatus.statusBit f)⟩
  · refine .pure ⟨core', hstep, hset (.refl _) (fun f => ?_) fun l b hl => ?_, hm.memory⟩
    · exact ⟨_, List.mem_map.2 ⟨f, Flag.mem_all f, rfl⟩⟩
    · obtain ⟨f, _, hf⟩ := List.mem_map.1 hl
      cases hf
      exact ⟨f, rfl, hentry f⟩

section

-- These emit nothing, so it does not matter which variables are in use.
omit [Counts inUse]

theorem after_setFlag (f : Flag) (b : Bool)
    (hstep : core.step work? opcode = some { core with cpu := core.cpu.setFlag f b }) :
    After inUse work? opcode core base (s.set (.flag f) (.literal b.toUInt32)) p σ := by
  have hvalue : (core.cpu.setFlag f b).value (.flag f) = b.toUInt32 := by cases f <;> rfl
  have hs' : Updated (σ.env.known (inUse p)) s (s.set (.flag f) (.literal b.toUInt32))
      (core.cpu.setFlag f b) [.flag f] := by
    refine ⟨rfl, fun l hl => ?_, fun l hl => ?_⟩
    · rw [List.mem_singleton.1 hl, get_set, if_pos rfl, hvalue]
      exact Binding.holds_literal fun _ => ⟨b, rfl⟩
    · rw [get_set, if_neg (by simpa using hl)]
  refine .of_updated hm.describes hstep hs' hm.memory fun l hl => ?_
  rcases l with q | f'
  · cases q <;> rfl
  · cases f <;> cases f' <;> first | rfl | exact absurd (by simp) hl

theorem after_same (hstep : core.step work? opcode = some { core with cpu })
    (hmemory' : cpu.memory = core.cpu.memory) (hsame : ∀ l, cpu.value l = core.cpu.value l) :
    After inUse work? opcode core base s p σ :=
  .of_updated hm.describes hstep (.refl _ s cpu) (hm.memory.trans hmemory'.symm) fun l _ => hsame l

theorem performs_branchAway (hstep : core.step work? opcode = some core) :
    Performs inUse H (branchAway site s) p σ (After inUse work? opcode core base) := by
  unfold branchAway
  split
  · exact .throw
  · exact .pure ⟨core, hstep, hm⟩

theorem after_pushAccumulator : After inUse work? .pha core base (s.push (.byte (s.get .a))) p σ :=
  ⟨_, rfl, ⟨hm.describes.location, hm.describes.location .a, hm.describes.stack⟩, hm.memory⟩

theorem after_pushStatus :
    After inUse work? .php core base (s.push (.status (.ofFn fun f => s.get (.flag f)))) p σ := by
  refine ⟨_, rfl, ⟨hm.describes.location, fun f => ?_, hm.describes.stack⟩, hm.memory⟩
  rw [PerFlag.get_ofFn, Status.ofByte_toByte]
  exact hm.describes.location (.flag f)

omit hm in
theorem performs_some (h : Performs inUse H m p σ (After inUse work? opcode core base)) :
    Performs inUse H (some <$> m) p σ fun flow p' σ' =>
      ∃ s', flow = some s' ∧ After inUse work? opcode core base s' p' σ' :=
  .map (h.mono fun s' _ _ _ hs' => ⟨s', rfl, hs'⟩)

end

omit hm in
theorem performs_instruction (hd : s.Describes (σ.env.known (inUse p)) core base)
    (hmemory : σ.memory = core.cpu.memory) (hjsr : site.instruction.opcode ≠ .jsr)
    (hrts : site.instruction.opcode ≠ .rts) :
    Performs inUse H (c.instruction site s) p σ fun flow p' σ' => ∃ s', flow = some s' ∧
      After inUse (c.program.codeWork? site.instruction core.cpu) site.instruction.opcode core base
        s' p' σ' := by
  have increment : ∀ (known : Known) (e : Expression) (b : UInt8), e.HasValue known b.toUInt32 →
      (Arithmetic.increment e).HasValue known (b + 1).toUInt32 := fun _ _ _ h => h.increment
  have decrement : ∀ (known : Known) (e : Expression) (b : UInt8), e.HasValue known b.toUInt32 →
      (Arithmetic.decrement e).HasValue known (b - 1).toUInt32 := fun _ _ _ h => h.decrement
  have hm : Matches inUse core base s p σ := ⟨hd, hmemory⟩
  unfold Generator.instruction
  cases hopcode : site.instruction.opcode
  case jsr => exact absurd hopcode hjsr
  case rts => exact absurd hopcode hrts
  case lda | ldx | ldy => exact performs_some (performs_loadRegister hm fun w => rfl)
  case sta | stx | sty => exact performs_some (performs_store hm fun w => rfl)
  case tax | tay | txa | tya => exact performs_some (performs_transfer hm rfl)
  case inx | iny => exact performs_some (performs_modifyRegister hm increment rfl)
  case dex | dey => exact performs_some (performs_modifyRegister hm decrement rfl)
  case inc => exact performs_some (performs_countInMemory hm increment fun w hne => if_neg hne)
  case dec => exact performs_some (performs_countInMemory hm decrement fun w hne => if_neg hne)
  case adc => exact performs_some (performs_addWithCarry hm false fun w => rfl)
  case sbc => exact performs_some (performs_addWithCarry hm true fun w => rfl)
  case and =>
    exact performs_some (performs_logical hm (by decide) (fun a b => UInt8.toUInt32_and a b)
      fun w => rfl)
  case ora =>
    exact performs_some (performs_logical hm (by decide) (fun a b => UInt8.toUInt32_or a b)
      fun w => rfl)
  case eor =>
    exact performs_some (performs_logical hm (by decide) (fun a b => UInt8.toUInt32_xor a b)
      fun w => rfl)
  case cmp | cpx | cpy => exact performs_some (performs_compare hm fun w => rfl)
  case asl | lsr | rol | ror =>
    exact performs_some (performs_shift hm _ (by rw [hopcode]; decide) fun w => rfl)
  case bit => exact performs_some (performs_bitTest hm fun w => rfl)
  case clc => exact .pure ⟨_, rfl, after_setFlag hm .carry false rfl⟩
  case sec => exact .pure ⟨_, rfl, after_setFlag hm .carry true rfl⟩
  case clv => exact .pure ⟨_, rfl, after_setFlag hm .overflow false rfl⟩
  case cld | sed | cli | sei | nop =>
    refine .pure ⟨_, rfl, after_same hm rfl rfl fun l => ?_⟩
    rcases l with q | f
    · cases q <;> rfl
    · cases f <;> rfl
  case pha => exact .pure ⟨_, rfl, after_pushAccumulator hm⟩
  case php => exact .pure ⟨_, rfl, after_pushStatus hm⟩
  case pla => exact performs_some (performs_pullAccumulator hm)
  case plp => exact performs_some (performs_pullStatus hm)
  case jmp =>
    dsimp only
    split
    · exact .throw
    · exact performs_some (performs_branchAway hm rfl)
  case bcc | bcs | beq | bmi | bne | bpl | bvc | bvs =>
    exact performs_some (performs_branchAway hm rfl)
  case brk | rti | tsx | txs => exact .throw

end Lift6502
