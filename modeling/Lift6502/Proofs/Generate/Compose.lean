import Lift6502.Proofs.Generate.Temporaries

/-!
# What holds of generators by the way they are made

A property that emitting, taking variables and failing have, and that goes through a sequence, is
`Composable`. `Threads` covers properties that depend on the values as well.
-/

namespace Lift6502

open Statement
open Arithmetic (negative zero invert increment decrement)

/-- A property of generators that holds of the parts that they are made of. -/
structure Composable (allowed : GenerationError → Prop) (Q : ∀ {α : Type}, Gen α → Prop) :
    Prop where
  pure : ∀ {α : Type} (a : α), Q (pure a : Gen α)
  throw : ∀ {α : Type} {e : GenerationError}, allowed e → Q (throw e : Gen α)
  bind : ∀ {α β : Type} {m : Gen α} {f : α → Gen β}, Q m → (∀ a, Q (f a)) → Q (m >>= f)
  emit : ∀ statement, Q (Gen.emit statement)
  newTemp : Q Gen.newTemp
  newMerge : ∀ l, Q (Gen.newMerge l)
  /-- A value may be missing anywhere, and the stack may differ. -/
  unbound : ∀ block l origin, allowed (.unbound block l origin)
  stackMismatch : ∀ block left right, allowed (.stackMismatch block left right)

/-- A property of generators and of what they give. The values matter only if it is `strict`; then
each temporary is assigned where it is taken. -/
structure Threads (strict : Prop) (allowed : GenerationError → Prop)
    (Q : ∀ {α : Type}, Gen α → (α → Prop) → Prop) : Prop where
  pure : ∀ {α : Type} {P : α → Prop} {a : α}, (strict → P a) → Q (pure a : Gen α) P
  throw : ∀ {α : Type} {P : α → Prop} {e : GenerationError}, allowed e → Q (throw e : Gen α) P
  bind : ∀ {α β : Type} {P : α → Prop} {R : β → Prop} {m : Gen α} {f : α → Gen β},
    Q m P → (∀ a, (strict → P a) → Q (f a) R) → Q (m >>= f) R
  emit : ∀ {statement}, (strict → ∀ n, Statement.Fresh n n [statement]) →
    Q (Gen.emit statement) fun _ => True
  keepInTemp : ∀ {e : Expression}, (strict → e.readsMemory = false ∨
      ∃ address : Expression, e = .memory address ∧ address.readsMemory = false) →
    Q (Gen.keepInTemp e) (·.readsMemory = false)
  newMerge : ∀ l, Q (Gen.newMerge l) (·.temp? = none)
  call : ∀ {α : Type} {P : α → Prop} {name arguments} {registers : List Register} {f : _ → α},
    (strict → ∀ x ∈ arguments, x.2.readsMemory = false) → (strict → ∀ results, P (f results)) →
    Q (do
      let results ← registers.mapM fun r => return (r, ← Gen.newTemp)
      Gen.emit (.call name arguments results)
      return f results) P
  unbound : ∀ block l origin, allowed (.unbound block l origin)
  stackMismatch : ∀ block left right, allowed (.stackMismatch block left right)

structure Generator.Site.MayFail (allowed : GenerationError → Prop) (site : Generator.Site) :
    Prop where
  unsupported : allowed site.unsupported
  unresolvedTarget : allowed site.unresolvedTarget
  stackUnderflow : allowed site.stackUnderflow

def Generator.assignFollow (f : Frame) (s : SymbolicState) : Gen Unit :=
  (f.follow.getD .empty).toList.forM fun (l, v) => do
    Gen.emit (.assign v (← Gen.read s l f.header))

namespace Composable

variable {allowed : GenerationError → Prop} {Q : ∀ {α : Type}, Gen α → Prop} {α β : Type}

theorem map (h : Composable allowed Q) {m : Gen α} (hm : Q m) (f : α → β) : Q (f <$> m) := by
  rw [← bind_pure_comp]
  exact h.bind hm fun a => h.pure (f a)

theorem ite {c : Prop} [Decidable c] {m m' : Gen α} (hm : c → Q m) (hm' : ¬c → Q m') :
    Q (if c then m else m') := by
  split
  · next hc => exact hm hc
  · next hc => exact hm' hc

theorem mapM (h : Composable allowed Q) {f : α → Gen β} (l : List α) (hf : ∀ a ∈ l, Q (f a)) :
    Q (l.mapM f) := by
  induction l with
  | nil =>
    rw [List.mapM_nil]
    exact h.pure []
  | cons a rest ih =>
    rw [List.mapM_cons]
    have hrest := ih fun b hb => hf b (List.mem_cons_of_mem a hb)
    exact h.bind (hf a List.mem_cons_self) fun b => h.bind hrest fun bs => h.pure (b :: bs)

theorem emitConditional (h : Composable allowed Q) (test : Expression) (t e : List Statement) :
    Q (Generator.emitConditional test t e) := by
  unfold Generator.emitConditional
  split
  · exact h.pure ()
  · exact h.emit _
  · exact h.emit _

theorem threads (h : Composable allowed Q) : Threads False allowed fun m _ => Q m where
  pure := fun _ => h.pure _
  throw := h.throw
  bind := fun hm hf => h.bind hm fun a => hf a False.elim
  emit := fun _ => h.emit _
  keepInTemp := fun _ => h.bind h.newTemp fun _ => h.bind (h.emit _) fun _ => h.pure _
  newMerge := h.newMerge
  call := fun _ _ => h.bind (h.mapM _ fun _ _ => h.bind h.newTemp fun _ => h.pure _) fun _ =>
    h.bind (h.emit _) fun _ => h.pure _
  unbound := h.unbound
  stackMismatch := h.stackMismatch

end Composable

namespace Threads

open Gen Generator Expression

variable {strict : Prop} {allowed : GenerationError → Prop}
  {Q : ∀ {α : Type}, Gen α → (α → Prop) → Prop}
  {α β : Type} {P : α → Prop} {R : β → Prop} {f : α → Gen β} {c : Generator} {site : Site}
  {s : SymbolicState} {e : Expression} {change : Expression → Expression}
  (h : Threads strict allowed Q)

include h

/-! ## Sequences -/

theorem map {m : Gen α} {f : α → β} (hm : Q m P) (hf : ∀ a, (strict → P a) → strict → R (f a)) :
    Q (f <$> m) R := by
  rw [← bind_pure_comp]
  exact h.bind hm fun a ha => h.pure (hf a ha)

theorem goesOn {m : Gen SymbolicState} (hm : Q m SymbolicState.Plain) : Q (some <$> m) PlainFlow :=
  h.map hm fun _ hs ht => plainFlow_some (hs ht)

theorem ofExcept {x : Except GenerationError α} (hx : ∀ e, x = .error e → allowed e)
    (hP : strict → ∀ a, x = .ok a → P a) : Q (MonadExcept.ofExcept x : Gen α) P := by
  cases x with
  | error e => exact h.throw (hx e rfl)
  | ok a => exact h.pure fun ht => hP ht a rfl

theorem foldlM {f : β → α → Gen β} (hf : ∀ b a, (strict → R b) → Q (f b a) R) {l : List α} {b : β}
    (hb : strict → R b) : Q (l.foldlM f b) R := by
  induction l generalizing b with
  | nil => exact h.pure hb
  | cons a rest ih =>
    rw [List.foldlM_cons]
    exact h.bind (hf b a hb) fun b' hb' => ih hb'

theorem mapM (hf : ∀ a, Q (f a) R) (l : List α) : Q (l.mapM f) fun bs => ∀ b ∈ bs, R b := by
  induction l with
  | nil => exact h.pure fun _ _ hb => absurd hb List.not_mem_nil
  | cons a rest ih =>
    rw [List.mapM_cons]
    refine h.bind (hf a) fun b hb => h.bind ih fun bs hbs => h.pure fun ht => ?_
    exact List.forall_mem_cons.2 ⟨hb ht, hbs ht⟩

theorem forM {f : α → Gen Unit} {l : List α} (hf : ∀ a ∈ l, Q (f a) fun _ => True) :
    Q (ForM.forM l f) fun _ => True := by
  induction l with
  | nil => exact h.pure fun _ => trivial
  | cons a rest ih =>
    exact h.bind (hf a List.mem_cons_self) fun _ _ => ih fun b hb =>
      hf b (List.mem_cons_of_mem a hb)

/-! ## Values -/

theorem emitAll {statements : List Statement}
    (hs : strict → ∀ s ∈ statements, ∀ n, Statement.Fresh n n [s]) :
    Q (Gen.emitAll statements) fun _ => True := h.forM fun s hmem => h.emit fun ht => hs ht s hmem

theorem read (hs : strict → s.Plain) (l : Location) (block : String) :
    Q (Gen.read s l block) (·.readsMemory = false) := by
  refine h.ofExcept (fun e he => ?_) fun ht e he => ?_
  · unfold SymbolicState.read at he
    split at he
    · cases he
    · cases he
      exact h.unbound _ _ _
  · unfold SymbolicState.read at he
    split at he
    · next hvalue =>
      cases he
      exact (hs ht).expression? hvalue
    · cases he

theorem stableValue (he : strict → e.readsMemory = false) :
    Q (Gen.stableValue e) (·.readsMemory = false) := by
  unfold Gen.stableValue
  split
  · exact h.pure he
  · exact h.pure he
  · exact h.pure he
  · exact h.keepInTemp fun ht => .inl (he ht)

theorem load {address : Expression} (ha : strict → address.readsMemory = false) :
    Q (Gen.load address) (·.readsMemory = false) :=
      h.keepInTemp fun ht => .inr ⟨address, rfl, ha ht⟩

theorem keepIf (kept : Bool) (he : strict → e.readsMemory = false) :
    Q (if kept then Gen.keepInTemp e else Pure.pure e : Gen Expression) (·.readsMemory = false) := by
  split
  · exact h.keepInTemp fun ht => .inl (he ht)
  · exact h.pure he

theorem assignAtOnce {assignments : List (Variable × Expression)}
    (ha : strict → ∀ a ∈ assignments, a.1.temp? = none ∧ a.2.readsMemory = false) :
    Q (Gen.assignAtOnce assignments) fun _ => True := by
  refine h.bind (P := fun pending => ∀ s ∈ pending, ∀ n, Statement.Fresh n n [s]) ?_
    fun pending hpending => h.emitAll hpending
  -- Induction on the assignments, whatever has been assigned before them.
  generalize ([] : List Variable) = assigned
  induction assignments generalizing assigned with
  | nil => exact h.pure fun _ _ hs => absurd hs List.not_mem_nil
  | cons a rest ih =>
    have ha := fun ht => List.forall_mem_cons.1 (ha ht)
    unfold Gen.assignAtOnce.go
    refine h.bind (h.keepIf _ fun ht => (ha ht).1.2) fun e he => ?_
    refine h.bind (ih (fun ht => (ha ht).2) _) fun pending hpending => h.pure fun ht => ?_
    exact List.forall_mem_cons.2 ⟨fresh_assign (ha ht).1.1 (he ht), hpending ht⟩

theorem withinLimit (he : strict → e.readsMemory = false) :
    Q (c.withinLimit e) (·.readsMemory = false) := by
  unfold Generator.withinLimit
  split
  · exact h.stableValue he
  · exact h.pure he

/-! ## Instructions -/

theorem pointer (he : strict → e.readsMemory = false) :
    Q (Generator.pointer e) (·.readsMemory = false) := by
  unfold Generator.pointer
  refine h.bind (h.load he) fun low hlow => ?_
  refine h.bind (h.load fun ht => by simp [he ht, readsMemory]) fun high hhigh =>
    h.pure fun ht => ?_
  simp [hlow ht, hhigh ht, readsMemory]

section Instruction

variable (hs : strict → s.Plain)

include hs

theorem bindLocation (l : Location) (he : strict → e.readsMemory = false) :
    Q (c.bind s l e) fun r => r.1.Plain ∧ r.2.readsMemory = false :=
  h.bind (h.withinLimit he) fun _ he' => h.pure fun ht =>
    ⟨(hs ht).set l (Binding.plain_ofExpression (he' ht)), he' ht⟩

theorem bindAll {values : List (Location × Expression)}
    (hvalues : strict → ∀ a ∈ values, a.2.readsMemory = false) :
    Q (c.bindAll s values) SymbolicState.Plain := by
  unfold Generator.bindAll
  induction values generalizing s with
  | nil => exact h.pure hs
  | cons a rest ih =>
    have hvalues := fun ht => List.forall_mem_cons.1 (hvalues ht)
    rw [List.foldlM_cons]
    refine h.bind (P := SymbolicState.Plain) ?_ fun s' hs' => ih hs' fun ht => (hvalues ht).2
    exact h.bind (h.bindLocation hs a.1 fun ht => (hvalues ht).1) fun r hr =>
      h.pure fun ht => (hr ht).1

theorem setResultFlags (he : strict → e.readsMemory = false) :
    Q (c.setResultFlags s e) SymbolicState.Plain := by
  refine h.bindAll hs fun ht => ?_
  simp [zero, negative, he ht, readsMemory]

theorem putRegister (r : Register) (he : strict → e.readsMemory = false) :
    Q (c.putRegister s r e) SymbolicState.Plain :=
  h.bind (h.bindLocation hs _ he) fun _ hr =>
    h.setResultFlags (fun ht => (hr ht).1) fun ht => (hr ht).2

theorem modifyRegister (r : Register)
    (hchange : ∀ e : Expression, e.readsMemory = false → (change e).readsMemory = false) :
    Q (c.modifyRegister site s r change) SymbolicState.Plain :=
  h.bind (h.read hs _ _) fun e he => h.putRegister hs r fun ht => hchange e (he ht)

theorem arguments (registers : List Register) (block : String) :
    Q (registers.mapM fun r => do return (r, ← Gen.read s (.register r) block))
      fun values => ∀ x ∈ values, x.2.readsMemory = false :=
  h.mapM (fun _ => h.bind (h.read hs _ _) fun _ he => h.pure he) registers

theorem callTo (callee : Routine) (block : String) :
    Q (Generator.call callee s block) SymbolicState.Plain := by
  refine h.bind (h.arguments hs _ _) fun arguments harguments =>
    h.call harguments fun ht results => ?_
  refine (hs ht).setAll fun b hb => ?_
  rcases List.mem_append.1 hb with hb | hb
  · rcases List.mem_append.1 hb with hb | hb
    · obtain ⟨result, -, rfl⟩ := List.mem_map.1 hb
      exact Binding.plain_ofVariable _
    · obtain ⟨r, -, rfl⟩ := List.mem_map.1 hb
      exact Binding.plain_unresolved _
  · obtain ⟨l, -, rfl⟩ := List.mem_map.1 hb
    exact Binding.plain_unresolved _

theorem ret (block : String) : Q (c.ret s block) fun _ => True := by
  unfold Generator.ret
  split
  · exact h.throw (h.stackMismatch _ _ _)
  · refine h.bind (h.arguments hs _ _) fun values hvalues => h.emit fun ht n => ?_
    refine fresh_flat rfl rfl fun e he => ?_
    obtain ⟨value, hvalue, rfl⟩ := List.mem_map.1 he
    exact hvalues ht value hvalue

variable (hsite : site.MayFail allowed)

include hsite

theorem addressFrom (he : strict → e.readsMemory = false) (mode : AddressingMode) :
    Q (c.addressFrom site s e mode) (·.readsMemory = false) := by
  cases mode with
  | zeroPage | absolute => exact h.pure he
  | zeroPageX | zeroPageY | absoluteX | absoluteY =>
    exact h.bind (h.read hs _ _) fun index hindex => h.pure fun ht =>
      readsMemory_indexed (he ht) (hindex ht) _
  | indexedIndirect =>
    refine h.bind (h.read hs _ _) fun index hindex => ?_
    exact h.bind (h.withinLimit fun ht => readsMemory_indexed (he ht) (hindex ht) _) fun _ hplace =>
      h.pointer hplace
  | indirectIndexed =>
    refine h.bind (h.read hs _ _) fun index hindex => h.bind (h.pointer he) fun place hplace => ?_
    exact h.pure fun ht => readsMemory_indexed (hplace ht) (hindex ht) _
  | implied | accumulator | immediate | indirect | relative => exact h.throw hsite.unsupported

theorem address : Q (c.address site s) (·.readsMemory = false) := by
  unfold Generator.address
  split
  · exact h.throw hsite.unresolvedTarget
  · exact h.throw hsite.unsupported
  · exact h.addressFrom hs hsite (fun _ => rfl) _

theorem readOperand : Q (c.readOperand site s) (·.readsMemory = false) := by
  unfold Generator.readOperand
  split
  · split
    · exact h.pure fun _ => rfl
    · exact h.throw hsite.unresolvedTarget
  · exact h.read hs _ _
  · exact h.read hs _ _
  · exact h.bind (h.address hs hsite) fun _ ha => h.load ha

theorem modifyMemory
    (hchange : strict → ∀ e : Expression, e.readsMemory = false → (change e).readsMemory = false) :
    Q (c.modifyMemory site s change) fun r => r.1.readsMemory = false ∧
      r.2.readsMemory = false := by
  unfold Generator.modifyMemory
  refine h.bind (h.address hs hsite) fun address haddress =>
    h.bind (h.load haddress) fun old hold => ?_
  refine h.bind (h.withinLimit fun ht => hchange ht old (hold ht)) fun value hvalue => ?_
  refine h.bind (h.emit fun ht _ => fresh_flat rfl rfl ?_) fun _ _ => h.pure fun ht =>
    ⟨hold ht, hvalue ht⟩
  simp [expressions, haddress ht, hvalue ht]

theorem countInMemory
    (hchange : ∀ e : Expression, e.readsMemory = false → (change e).readsMemory = false) :
    Q (c.countInMemory site s change) SymbolicState.Plain :=
  h.bind (h.modifyMemory hs hsite fun _ => hchange) fun _ hr =>
    h.setResultFlags hs fun ht => (hr ht).2

theorem store (r : Register) : Q (c.store site s r) SymbolicState.Plain := by
  unfold Generator.store
  refine h.bind (h.read hs _ _) fun value hvalue =>
    h.bind (h.address hs hsite) fun address haddress => ?_
  refine h.bind (h.emit fun ht _ => fresh_flat rfl rfl ?_) fun _ _ => h.pure hs
  simp [expressions, haddress ht, hvalue ht]

theorem addWithCarry (inverted : Bool) :
    Q (c.addWithCarry site s inverted) SymbolicState.Plain := by
  unfold Generator.addWithCarry
  refine h.bind (h.read hs _ _) fun a ha => h.bind (h.read hs _ _) fun carry hcarry => ?_
  refine h.bind (h.readOperand hs hsite) fun operand hoperand => ?_
  have hinvert : Q (if inverted then c.withinLimit (invert operand) else Pure.pure operand :
      Gen Expression) (·.readsMemory = false) := by
    split
    · exact h.withinLimit fun ht => by simp [invert, hoperand ht, readsMemory]
    · exact h.pure hoperand
  refine h.bind hinvert fun operand hoperand => ?_
  refine h.bind (h.withinLimit fun ht => by simp [Arithmetic.sum, ha ht, hoperand ht, hcarry ht])
    fun sum hsum => h.bind (h.bindLocation hs _ fun ht => by simp [hsum ht]) fun r hr => ?_
  refine h.bind (h.bindAll (fun ht => (hr ht).1) fun ht => ?_) fun s hs =>
    h.setResultFlags hs fun ht => (hr ht).2
  simp [Arithmetic.carryOut, Arithmetic.overflow, hsum ht, ha ht, hoperand ht, (hr ht).2,
    readsMemory]

theorem logical (op : BinOp) : Q (c.logical site s op) SymbolicState.Plain := by
  refine h.bind (h.read hs _ _) fun a ha =>
    h.bind (h.readOperand hs hsite) fun operand hoperand => ?_
  exact h.putRegister hs _ fun ht => by simp [ha ht, hoperand ht]

theorem compare (r : Register) : Q (c.compare site s r) SymbolicState.Plain := by
  refine h.bind (h.read hs _ _) fun a ha =>
    h.bind (h.readOperand hs hsite) fun operand hoperand => ?_
  refine h.bindAll hs fun ht => ?_
  simp [Arithmetic.compare, negative, ha ht, hoperand ht, readsMemory]

theorem shift (kind : Arithmetic.Shift) : Q (c.shift site s kind) SymbolicState.Plain := by
  have hcarry : Q (shiftedIn site s kind) (·.readsMemory = false) := by
    cases kind with
    | rol | ror => exact h.read hs _ _
    | asl | lsr => exact h.pure fun _ => rfl
  unfold Generator.shift
  refine h.bind hcarry fun carry hcarry => ?_
  have hplain :=
    fun ht {e : Expression} (he : e.readsMemory = false) => readsMemory_shift he (hcarry ht) kind
  split
  · refine h.bind (h.modifyMemory hs hsite fun ht e he => (hplain ht he).1) fun r hr => ?_
    refine h.bind (h.bindLocation hs _ fun ht => (hplain ht (hr ht).1).2) fun r' hr' => ?_
    exact h.setResultFlags (fun ht => (hr' ht).1) fun ht => (hr ht).2
  · refine h.bind (h.read hs _ _) fun a ha => ?_
    refine h.bind (h.bindLocation hs _ fun ht => (hplain ht (ha ht)).2) fun r hr => ?_
    exact h.putRegister (fun ht => (hr ht).1) _ fun ht => (hplain ht (ha ht)).1

theorem bitTest : Q (c.bitTest site s) SymbolicState.Plain := by
  unfold Generator.bitTest
  refine h.bind (h.read hs _ _) fun a ha => h.bind (h.address hs hsite) fun address haddress => ?_
  refine h.bind (h.load haddress) fun operand hoperand => h.bindAll hs fun ht => ?_
  simp [Arithmetic.bitTest, zero, negative, ha ht, hoperand ht, readsMemory]

theorem pullAccumulator : Q (c.pullAccumulator site s) SymbolicState.Plain := by
  unfold Generator.pullAccumulator
  split
  · exact h.throw hsite.stackUnderflow
  · exact h.throw hsite.unsupported
  · next b s' hpop =>
    have hpopped := fun ht => (hs ht).pop? hpop
    split
    · next value hvalue =>
      exact h.putRegister (fun ht => (hpopped ht).2) _ fun ht =>
        Binding.Plain.of_expression? (hpopped ht).1 hvalue
    · refine h.pure fun ht => (hpopped ht).2.setAll ?_
      have hb := (hpopped ht).1
      simp only [List.forall_mem_cons]
      exact ⟨hb, hb, hb, fun _ h => absurd h List.not_mem_nil⟩

theorem pullStatus : Q (Generator.pullStatus site s) SymbolicState.Plain := by
  unfold Generator.pullStatus
  split
  · exact h.throw hsite.stackUnderflow
  · next flags s' hpop =>
    refine h.pure fun ht => ((hs ht).pop? hpop).2.setAll fun b hb => ?_
    obtain ⟨f, -, rfl⟩ := List.mem_map.1 hb
    exact ((hs ht).pop? hpop).1 f
  · next b s' hpop =>
    split
    · exact h.throw (h.unbound _ _ _)
    · next value hvalue =>
      refine h.bind (h.stableValue fun ht =>
        Binding.Plain.of_expression? ((hs ht).pop? hpop).1 hvalue)
        fun status hstatus => h.pure fun ht => ((hs ht).pop? hpop).2.setAll fun b hb => ?_
      obtain ⟨f, -, rfl⟩ := List.mem_map.1 hb
      exact Binding.plain_ofExpression (by simp [Arithmetic.statusBit, hstatus ht, readsMemory])

theorem callRoutine : Q (c.callRoutine site s) SymbolicState.Plain := by
  unfold Generator.callRoutine
  split
  · exact h.callTo hs _ _
  · exact h.throw hsite.unresolvedTarget

theorem branchAway : Q (Generator.branchAway site s) SymbolicState.Plain := by
  unfold Generator.branchAway
  split
  · exact h.throw hsite.unresolvedTarget
  · exact h.pure hs

theorem instruction : Q (c.instruction site s) PlainFlow := by
  have hliteral : ∀ value, (Binding.literal value).Plain := fun _ e he => by cases he
  have hcount : ∀ e : Expression, e.readsMemory = false → (increment e).readsMemory =
      false ∧ (decrement e).readsMemory = false := by
    intro e he
    simp [increment, decrement, he, readsMemory]
  unfold Generator.instruction
  cases site.instruction.opcode
  case lda | ldx | ldy =>
    exact h.goesOn (h.bind (h.readOperand hs hsite) fun _ he => h.putRegister hs _ he)
  case sta | stx | sty => exact h.goesOn (h.store hs hsite _)
  case tax | tay | txa | tya =>
    exact h.goesOn (h.bind (h.read hs _ _) fun _ he => h.putRegister hs _ he)
  case inx | iny => exact h.goesOn (h.modifyRegister hs _ fun e he => (hcount e he).1)
  case dex | dey => exact h.goesOn (h.modifyRegister hs _ fun e he => (hcount e he).2)
  case inc => exact h.goesOn (h.countInMemory hs hsite fun e he => (hcount e he).1)
  case dec => exact h.goesOn (h.countInMemory hs hsite fun e he => (hcount e he).2)
  case adc | sbc => exact h.goesOn (h.addWithCarry hs hsite _)
  case and | ora | eor => exact h.goesOn (h.logical hs hsite _)
  case cmp | cpx | cpy => exact h.goesOn (h.compare hs hsite _)
  case asl | lsr | rol | ror => exact h.goesOn (h.shift hs hsite _)
  case bit => exact h.goesOn (h.bitTest hs hsite)
  case clc | sec | clv => exact h.pure fun ht => plainFlow_some ((hs ht).set _ (hliteral _))
  case cld | sed | cli | sei | nop => exact h.pure fun ht => plainFlow_some (hs ht)
  case pha => exact h.pure fun ht => plainFlow_some ((hs ht).push ((hs ht).get .a))
  case php =>
    refine h.pure fun ht => plainFlow_some ((hs ht).push fun f => ?_)
    rw [PerFlag.get_ofFn]
    exact (hs ht).get (.flag f)
  case pla => exact h.goesOn (h.pullAccumulator hs hsite)
  case plp => exact h.goesOn (h.pullStatus hs hsite)
  case jsr => exact h.goesOn (h.callRoutine hs hsite)
  case jmp =>
    dsimp only
    split
    · exact h.throw hsite.unsupported
    · exact h.goesOn (h.branchAway hs hsite)
  case bcc | bcs | beq | bmi | bne | bpl | bvc | bvs => exact h.goesOn (h.branchAway hs hsite)
  case rts => exact h.bind (h.ret hs _) fun _ _ => h.pure fun _ => plainFlow_none
  case brk | rti | tsx | txs => exact h.throw hsite.unsupported

end Instruction

/-! ## Blocks -/

theorem noteHidden (block : Block) (index : Nat) :
    Q (Generator.noteHidden block index) fun _ => True := by
  unfold Generator.noteHidden
  split
  · exact h.emit fun _ _ => fresh_flat rfl rfl fun _ h => absurd h List.not_mem_nil
  · exact h.pure fun _ => trivial

section Paths

variable (hs : strict → s.Plain)

include hs

theorem instructions (name : String) (block : Block) (index : Nat) (code : List Instruction)
    (hcode : ∀ index, ∀ i ∈ code, Site.MayFail allowed ⟨name, block, index, i⟩) :
    Q (c.instructions name block index code s) PlainFlow := by
  induction code generalizing index s with
  | nil => exact h.pure fun ht => plainFlow_some (hs ht)
  | cons i rest ih =>
    unfold Generator.instructions
    refine h.bind (h.noteHidden block index) fun _ _ => ?_
    refine h.bind (h.instruction hs (hcode index i List.mem_cons_self)) fun flow hflow => ?_
    split
    · exact ih (fun ht => hflow ht _ rfl) _ fun index j hj =>
        hcode index j (List.mem_cons_of_mem i hj)
    · exact h.pure fun _ => plainFlow_none

theorem block (b : BlockId)
    (hcode : ∀ index, ∀ i ∈ (c.graph.block b).code,
      Site.MayFail allowed ⟨c.graph.name b, c.graph.block b, index, i⟩) :
    Q (c.block b s) PlainFlow := by
  unfold Generator.block
  refine h.bind (h.instructions hs _ _ _ _ hcode) fun flow hflow => ?_
  split
  · exact h.pure fun _ => plainFlow_none
  · split
    · exact h.bind (h.ret (fun ht => hflow ht _ rfl) _) fun _ _ => h.pure fun _ => plainFlow_none
    · exact h.pure fun ht => plainFlow_some (hflow ht _ rfl)

/-! ## Where paths meet -/

theorem condition (condition : Condition)
    (htest : ∀ b taken, condition = .branch b taken →
      ((c.graph.block b).terminator?.bind fun i => i.opcode.branchCondition?) = none →
      allowed (.unsupported (c.graph.name b) "condition without a branch")) :
    Q (c.condition condition s) (·.readsMemory = false) := by
  unfold Generator.condition
  split
  · next b taken =>
    dsimp only
    split
    · next hnone => exact h.throw (htest b taken rfl hnone)
    · refine h.bind (h.read hs _ _) fun e he => h.pure fun ht => ?_
      split <;> split <;> simp [he ht]
  · exact h.pure fun _ => by simp [readsMemory]

theorem joinStacks (others : List SymbolicState) (block : String) :
    Q (MonadExcept.ofExcept (Lift6502.joinStacks s others block) : Gen _)
      fun stack => ∀ entry ∈ stack, entry.Plain := by
  refine h.ofExcept (fun e he => ?_) fun ht _ => SymbolicState.plain_of_joinStacks (hs ht)
  unfold Lift6502.joinStacks at he
  split at he
  · cases he
    exact h.stackMismatch _ _ _
  · cases he

/-! ## Loops -/

theorem stateAfterTest (phis : Carriers) :
    Q (Generator.stateAfterTest phis s) SymbolicState.Plain := by
  refine h.foldlM (fun after l hafter => ?_) hs
  split
  · exact h.pure fun ht => (hafter ht).set l (Binding.plain_ofVariable _)
  · next value hvalue =>
    split
    · refine h.bind (h.keepInTemp fun ht => .inl ((hs ht).expression? hvalue)) fun e he => ?_
      exact h.pure fun ht => (hafter ht).set l (Binding.plain_ofExpression (he ht))
    · exact h.pure hafter
  · exact h.pure hafter

theorem enterLoop (task : LoopTask) (widened : LocationSet) :
    Q (Generator.enterLoop task s widened) fun r => r.1.Lasting ∧ r.2.Plain := by
  refine h.foldlM (fun r l hr => ?_) fun ht => ⟨Carriers.lasting_empty, hs ht⟩
  obtain ⟨phis, entry⟩ := r
  have hlose : strict → Carriers.Lasting phis ∧ (enterLoop.lose task entry l).Plain := fun ht =>
    ⟨(hr ht).1, (hr ht).2.set l (Binding.plain_unresolved _)⟩
  dsimp only
  split
  · next value hvalue =>
    split
    · exact h.pure hlose
    · refine h.bind (h.newMerge l) fun phi hphi => ?_
      refine h.bind (h.emit fun ht => fresh_assign (hphi ht) ((hs ht).expression? hvalue))
        fun _ _ => ?_
      exact h.pure fun ht =>
        ⟨(hr ht).1.set l (hphi ht), (hr ht).2.set l (Binding.plain_ofVariable phi)⟩
  · exact h.pure hlose

theorem assignFollow {f : Frame} (hfollow : strict → ∀ plan, f.follow = some plan → plan.Lasting) :
    Q (Generator.assignFollow f s) fun _ => True := by
  refine h.forM fun ⟨l, v⟩ hv => h.bind (h.read hs _ _) fun e he => h.emit fun ht =>
    fresh_assign ?_ (he ht)
  have hget := Carriers.mem_toList.1 hv
  cases hplan : f.follow with
  | none =>
    rw [hplan, Option.getD_none, Carriers.get_empty] at hget
    cases hget
  | some plan =>
    rw [hplan] at hget
    exact hfollow ht plan hplan l v hget

/-! ## Jumps out of the tree -/

theorem settleFor (hc : strict → c.Lasting) (target : BlockId) (hplan : c.dispatch = none →
      allowed (.unsupported (c.graph.name target) "jump into a structured function")) :
    Q (c.settleFor target s) fun _ => True := by
  unfold Generator.settleFor
  dsimp only
  split
  · next hnone => exact h.throw (hplan hnone)
  · next plan hdispatch =>
    split
    · exact h.throw (h.stackMismatch _ _ _)
    · refine h.bind (P := fun values => ∀ a ∈ values, a.1.temp? = none ∧ a.2.readsMemory = false)
        (h.mapM (fun l => h.bind (h.read hs _ _) fun _ he => h.pure fun ht =>
          ⟨hc ht plan hdispatch l, he ht⟩) _) fun values hvalues => ?_
      refine h.bind (h.assignAtOnce fun ht a ha => hvalues ht a ((List.mem_filter.1 ha).1))
        fun _ _ => ?_
      exact h.emit fun _ => fresh_assign rfl rfl

theorem handOver (target : BlockId)
    (hcallee : c.routines.atEntry? target = none → allowed (.unresolvedTarget (c.graph.name target)
      ("jump to " ++ c.graph.name target))) : Q (c.handOver target s) fun _ => True := by
  unfold Generator.handOver
  dsimp only
  split
  · next hnone => exact h.throw (hcallee hnone)
  · exact h.bind (h.callTo hs _ _) fun _ hs' => h.ret hs' _

theorem goto (hc : strict → c.Lasting) (target : BlockId)
    (hinside : target ∈ c.routine.blocks → c.dispatch = none →
      allowed (.unsupported (c.graph.name target) "jump into a structured function"))
    (hcallee : target ∉ c.routine.blocks → c.routines.atEntry? target = none →
      allowed (.unresolvedTarget (c.graph.name target) ("jump to " ++ c.graph.name target))) :
    Q (c.goto target s) PlainFlow := by
  unfold Generator.goto
  split
  · next hin =>
    refine h.bind (h.settleFor hs hc target (hinside (BlockSet.contains_iff.1 hin))) fun _ _ => ?_
    refine h.bind (h.emit fun _ _ => fresh_flat rfl rfl ?_) fun _ _ => h.pure fun _ =>
      plainFlow_none
    exact fun _ h => absurd h List.not_mem_nil
  · next hout =>
    refine h.bind (h.handOver hs target (hcallee fun hin => ?_)) fun _ _ => h.pure fun _ =>
      plainFlow_none
    exact hout (BlockSet.contains_iff.2 hin)

end Paths

theorem join {left right : Option SymbolicState} (hleft : strict → PlainFlow left)
    (hright : strict → PlainFlow right) (block : String) :
    Q (Generator.join left right block) fun r =>
      PlainFlow r.1 ∧ ∀ n, Statement.Fresh n n r.2.1 ∧ Statement.Fresh n n r.2.2 := by
  have hnone : ∀ n, Statement.Fresh n n [] ∧ Statement.Fresh n n [] := fun n =>
    ⟨fresh_nil n n, fresh_nil n n⟩
  unfold Generator.join
  split
  · next left right =>
    have hleft : strict → left.Plain := fun ht => hleft ht _ rfl
    refine h.bind (P := PlainJoin) ?_ fun r hr => h.pure fun ht =>
      ⟨plainFlow_some (hr ht).1, (hr ht).2⟩
    refine h.bind (h.joinStacks hleft _ _) fun stack hstack => ?_
    refine h.bind (P := PlainJoin) (h.foldlM (fun r l hr => ?_) fun ht => ⟨hleft ht, hnone⟩)
      fun r hr =>
      h.pure fun ht => ⟨⟨(hr ht).1.get, hstack ht⟩, (hr ht).2⟩
    obtain ⟨merged, onLeft, onRight⟩ := r
    dsimp only
    split
    · next leftValue rightValue hl hv =>
      refine h.bind (h.newMerge l) fun v hmerge => h.pure fun ht =>
        ⟨(hr ht).1.set l (Binding.plain_ofVariable v), fun n => ?_⟩
      have hl := fresh_assign (hmerge ht) ((hleft ht).expression? hl) n
      have hv := fresh_assign (hmerge ht) ((hright ht _ rfl).expression? hv) n
      exact ⟨((hr ht).2 n).1.append hl (Nat.le_refl n) (Nat.le_refl n),
        ((hr ht).2 n).2.append hv (Nat.le_refl n) (Nat.le_refl n)⟩
    · exact h.pure fun ht => ⟨(hr ht).1.set l (Binding.plain_unresolved _), (hr ht).2⟩
  · exact h.pure fun ht => ⟨hleft ht, hnone⟩
  · exact h.pure fun ht => ⟨hright ht, hnone⟩
  · exact h.pure fun _ => ⟨plainFlow_none, hnone⟩

theorem breakCarriers (breaks : List SymbolicState) :
    Q (Generator.breakCarriers breaks) Carriers.Lasting := by
  unfold Generator.breakCarriers
  split
  · exact h.pure fun _ => Carriers.lasting_empty
  · refine h.foldlM (fun plan l hplan => ?_) fun _ => Carriers.lasting_empty
    dsimp only
    split
    · exact h.bind (h.newMerge l) fun v hv => h.pure fun ht => (hplan ht).set l (hv ht)
    · exact h.pure hplan

theorem afterLoop (name : String) {a : Attempt} (hbreaks : strict → ∀ s ∈ a.breaks, s.Plain)
    (hexit : strict → PlainFlow a.testExit) (follow : Option Carriers)
    (hboth : a.testExit.isSome = true → a.breaks ≠ [] →
      allowed (.unsupported name "loop left both by its test and by break")) :
    Q (Generator.afterLoop name a follow) PlainFlow := by
  unfold Generator.afterLoop
  split
  · next exit hsome _ => exact h.pure fun ht => hsome ▸ hexit ht
  · next hsome hbroken => exact h.throw (hboth (by rw [hsome]; rfl) (by rw [hbroken]; simp))
  · exact h.pure fun _ => plainFlow_none
  · next first others _ hsome =>
    have hfirst : strict → first.Plain := fun ht => hbreaks ht first (hsome ▸ List.mem_cons_self)
    refine h.bind (h.joinStacks hfirst _ _) fun stack hstack => h.pure fun ht =>
      plainFlow_some ⟨fun l => ?_, hstack ht⟩
    rw [SymbolicState.get, PerLocation.get_ofFn]
    split
    · exact Binding.plain_ofVariable _
    · split
      · exact (hfirst ht).get l
      · exact Binding.plain_unresolved _

theorem carryAll : Q Generator.carryAll fun _ => True :=
  h.foldlM (fun _ l _ => h.bind (h.newMerge l) fun _ _ => h.pure fun _ => trivial) fun _ => trivial

end Threads

end Lift6502
