import Lift6502.Decompile
import Lift6502.Proofs.Generate.Failures
import Mathlib.Data.List.Pairwise

/-!
# Trees meet the generator's expectations

The tree of every routine is well formed, or a dispatch loop whose arms end with jumps. So a routine
has no code only for what its own instructions do.
-/

namespace Lift6502

open Generator

variable {code : Instruction → Prop} {inv : List Frame → Prop} {e : GenerationError} {b : BlockId}

theorem Surroundings.allWellFormed_dispatchArm {u : Surroundings} (hb : u.runs b)
    (haway : ∀ t ∈ u.graph.successors b, u.away t) :
    u.AllWellFormed [] (.block b :: dispatchExit u.graph b) := by
  refine ⟨hb, ?_⟩
  unfold dispatchExit
  simp only
  split
  · next taken fall htaken hfall =>
    have htakenAway := haway taken (Block.mem_successors_iff.2 ⟨.branch, htaken⟩)
    have hfallAway := haway fall (Block.mem_successors_iff.2 ⟨.fallThrough, hfall⟩)
    split
    · next hcond => exact ⟨⟨⟨hb, hcond.2⟩, ⟨htakenAway, trivial⟩, ⟨hfallAway, trivial⟩⟩, trivial⟩
    · exact ⟨hfallAway, trivial⟩
  · cases hhead : (u.graph.block b).successors.head? with
    | none => trivial
    | some t => exact ⟨haway t (List.mem_of_mem_head? hhead), trivial⟩

namespace Generator

open Gen

variable {c : Generator} {u : Surroundings} {s : SymbolicState} {p p' : Progress}
  {flow : Option SymbolicState} {target : BlockId}

theorem goto_ends (hy : Yields (c.goto target s) p flow p') : flow = none := by
  unfold goto at hy
  split at hy
  · obtain ⟨_, _, -, hy⟩ := hy.of_bind
    obtain ⟨_, _, -, hy⟩ := hy.of_bind
    exact hy.of_pure.1
  · obtain ⟨_, _, -, hy⟩ := hy.of_bind
    exact hy.of_pure.1

theorem nodes_goto_ends (hy : Yields (c.nodes [.goto target] s) p flow p') : flow = none := by
  rw [nodes] at hy
  obtain ⟨next, _, hgoto, hy⟩ := hy.of_bind
  rw [node] at hgoto
  rw [goto_ends hgoto] at hy
  exact hy.of_pure.1

theorem conditional_ends {condition : Condition} {thenBranch elseBranch : PathGen}
    {join : Option BlockId} (ht : ∀ {p flow p'}, Yields (thenBranch s) p flow p' → flow = none)
    (he : ∀ {p flow p'}, Yields (elseBranch s) p flow p' → flow = none)
    (hy : Yields (c.conditional condition thenBranch elseBranch join s) p flow p') :
    flow = none := by
  unfold conditional at hy
  obtain ⟨_, _, -, hy⟩ := hy.of_bind
  obtain ⟨thenFlow, _, _, hthen, -, hy⟩ := yields_capture_bind.1 hy
  obtain ⟨elseFlow, _, _, helse, -, hy⟩ := yields_capture_bind.1 hy
  obtain ⟨joined, _, hjoin, hy⟩ := hy.of_bind
  obtain ⟨_, _, -, hy⟩ := hy.of_bind
  have hthenFlow : thenFlow = none := ht hthen
  have helseFlow : elseFlow = none := he helse
  rw [hthenFlow, helseFlow] at hjoin
  obtain ⟨rfl, -⟩ := hjoin.of_pure
  exact hy.of_pure.1

theorem successors_ne_nil (hy : Yields (c.block b s) p (some s') p') :
    (c.graph.block b).successors ≠ [] := by
  intro hnil
  unfold block at hy
  obtain ⟨next, _, -, hy⟩ := hy.of_bind
  cases next with
  | none => cases hy.of_pure.1
  | some s =>
    simp only [hnil, List.isEmpty_nil, if_true] at hy
    obtain ⟨_, _, -, hy⟩ := hy.of_bind
    cases hy.of_pure.1

theorem dispatchArm_ends
    (hy : Yields (c.nodes (.block b :: dispatchExit c.graph b) s) p flow p') : flow = none := by
  rw [nodes] at hy
  obtain ⟨next, p1, hblock, hy⟩ := hy.of_bind
  rw [node] at hblock
  cases next with
  | none => exact hy.of_pure.1
  | some s =>
    have hsuccessors := successors_ne_nil hblock
    simp only at hy
    unfold dispatchExit at hy
    simp only at hy
    split at hy
    · split at hy
      · rw [nodes] at hy
        obtain ⟨after, _, hcond, hy⟩ := hy.of_bind
        rw [node] at hcond
        rw [conditional_ends nodes_goto_ends nodes_goto_ends hcond] at hy
        exact hy.of_pure.1
      · exact nodes_goto_ends hy
    · cases hexits : (c.graph.block b).successors with
      | nil => exact absurd hexits hsuccessors
      | cons t rest =>
        rw [hexits] at hy
        exact nodes_goto_ends hy

theorem safe_dispatchLoop {d : Dominators} {entry : BlockId} (hgraph : u.graph = c.graph)
    (hcode : ∀ b, u.runs b → ∀ i ∈ (c.graph.block b).code, code i)
    (haway : ∀ b ∈ d.order, u.runs b ∧ ∀ t ∈ c.graph.successors b, u.away t)
    (houtside : ∀ t, u.away t → t ∉ c.routine.blocks → c.routines.atEntry? t ≠ none)
    (s : SymbolicState) :
    Safe code (Inside []) (c.dispatchLoop (ControlTree.dispatch c.graph entry d) s) := by
  refine .bind threads_safe.carryAll fun carriers => ?_
  -- From here on the generator has a plan, so control may go to any block of the routine.
  have hserves : Serves { c with dispatch := some ⟨carriers, c.certainlySet⟩ } u code :=
    ⟨hgraph, hcode, fun _ _ _ => by simp, houtside⟩
  refine .bind (threads_safe.settleFor False.elim False.elim _ fun h => by cases h)
    fun _ => ?_
  refine .bind (composable_safe.mapM _ fun arm harm => ?_) fun _ => composable_safe.emit _
  obtain ⟨b, hb, rfl⟩ := List.mem_map.1 harm
  obtain ⟨hruns, htargets⟩ := haway b hb
  have hwell : u.AllWellFormed [] (.block b :: dispatchExit c.graph b) := by
    rw [← hgraph]
    exact Surroundings.allWellFormed_dispatchArm hruns fun t ht => htargets t (hgraph ▸ ht)
  refine .bind_of (safe_nodes hserves [] _ hwell _).capture fun p r p' _ hy => ?_
  obtain ⟨flow, body⟩ := r
  obtain ⟨_, hnodes, -⟩ := yields_capture.1 hy
  obtain rfl : flow = none := dispatchArm_ends hnodes
  exact .bind (threads_safe.condition False.elim _ fun _ _ h => by cases h)
    fun _ => .pure _

theorem arisesFrom_of_generate {t : ControlTree}
    (hstructured : t.structured = true →
      Safe code (Inside []) (c.nodes t.nodes (.entry c.routine.inputs)))
    (hdispatch : t.structured = false →
      Safe code (Inside []) (c.dispatchLoop t (.entry c.routine.inputs)))
    (h : (c.generate t).1 = .error e) : e.ArisesFrom code := by
  have hbody : Safe code (Inside []) (c.body t) := by
    refine .bind (Composable.ite (fun ht => ?_) fun ht => ?_) fun _ => .bind .get fun _ => .note _
    · refine .bind (hstructured ht) fun flow => ?_
      split
      · exact threads_safe.ret False.elim _
      · exact .pure ()
    · exact hdispatch (by simpa using ht)
  refine hbody.fails (p := {}) .nil ?_
  unfold generate at h
  unfold Fails
  split at h
  · cases h
  · next e' _ hrun =>
    rw [hrun]
    cases h
    rfl

end Generator

/-! ## Failures that never occur -/

def GenerationError.shapeTexts : List String :=
  ["condition without a branch", "loop without a test", "loop",
    "loop left both by its test and by break", "jump into a structured function",
    "dispatch lowering", "block without successor in dispatch loop"]

def GenerationError.IsForShape : GenerationError → Prop
  | .unsupported _ text =>
    text ∈ shapeTexts ∨ ∃ label, text = "jump to loop " ++ label ++ " from outside it"
  | .unresolvedTarget _ text => ∃ name, text = "jump to " ++ name
  | .unbound .. | .stackMismatch .. | .stackUnderflow .. => False

theorem Instruction.isUpper_head_text (i : Instruction) :
    (i.text.toList.head?).any Char.isUpper = true := by
  have hopcode : (i.opcode.text.toList.head?).any Char.isUpper = true := by
    cases i.opcode <;> rfl
  unfold Instruction.text
  split
  · exact hopcode
  · rw [String.toList_append, String.toList_append]
    cases hchars : i.opcode.text.toList with
    | nil =>
      rw [hchars] at hopcode
      cases hopcode
    | cons first rest =>
      rw [hchars] at hopcode
      exact hopcode

theorem GenerationError.ArisesFrom.not_isForShape (h : e.ArisesFrom code) : ¬ e.IsForShape := by
  cases e with
  | unbound | stackMismatch | stackUnderflow => exact fun hshape => hshape
  | unsupported block text =>
    obtain ⟨i, -, rfl⟩ := h
    have hupper := i.isUpper_head_text
    rintro (hmem | ⟨label, heq⟩)
    · have hlower : ∀ text ∈ shapeTexts, (text.toList.head?).any Char.isUpper = false := by decide
      rw [hlower _ hmem] at hupper
      cases hupper
    · rw [heq, String.toList_append, String.toList_append] at hupper
      cases hupper
  | unresolvedTarget block text =>
    obtain ⟨i, -, rfl⟩ := h
    have hupper := i.isUpper_head_text
    rintro ⟨name, heq⟩
    rw [heq, String.toList_append] at hupper
    cases hupper

/-! ## The routines of a program -/

theorem Routines.Separate.not_mem_blocks {rs : List Routine} (h : Separate rs) {r q : Routine}
    (hr : r ∈ rs) (hq : q ∈ rs) (hne : q ≠ r) : q.entry ∉ r.blocks := by
  have hsymm : Std.Symm fun r q : Routine => ∀ b ∈ r.blocks, b ∉ q.blocks :=
    ⟨fun _ _ hdisjoint b hb hb' => hdisjoint b hb' hb⟩
  exact h.disjoint.forall hq hr hne q.entry (h.entry_mem q hq)

/-- A routine of a program, as decompiling it with some options finds it. -/
def Program.HasRoutine (p : Program) (o : Options) (g : Graph) (rs : Routines) (r : Routine) :
    Prop :=
  ∃ roots, (Graph.ofProgram p).1 = .ok g ∧ o.roots g = .ok roots ∧ roots ≠ [] ∧
    rs = (Routines.ofGraph g roots).1 ∧ r ∈ rs.all

/-- What the tree of a routine is about: control leaves it for the entries of other
routines only. -/
def Routine.surroundings (r : Routine) (g : Graph) (rs : Routines) : Surroundings where
  graph := g
  runs := Routines.Reaches g r
  away := fun t => ∃ q ∈ rs.all, q.entry = t ∧ q ≠ r

def Routine.Runs (r : Routine) (g : Graph) (i : Instruction) : Prop :=
  ∃ b ∈ r.blocks, Routines.Reaches g r b ∧ i ∈ (g.block b).code

namespace Program.HasRoutine

variable {p : Program} {o : Options} {g : Graph} {rs : Routines} {r : Routine}

variable (h : p.HasRoutine o g rs r)

include h

theorem standard : (Layout.ofRoutine g r).Standard := by
  obtain ⟨roots, hg, -, -, rfl, hr⟩ := h
  exact Layout.standard_ofRoutine hg hr

theorem mem_all : r ∈ rs.all := by
  obtain ⟨_, -, -, -, -, hr⟩ := h
  exact hr

theorem separate : Routines.Separate rs.all := by
  obtain ⟨roots, -, -, -, rfl, -⟩ := h
  exact Routines.separate_ofGraph g roots

theorem away {b t : BlockId} (hb : Routines.Reaches g r b) (ht : t ∈ g.successors b)
    (hout : t ∉ r.blocks) : (r.surroundings g rs).away t := by
  have hentry := h.standard.entry_mem
  obtain ⟨roots, hg, hroots, hne, rfl, hr⟩ := h
  cases graph_eq_of_ofProgram hg
  have hclosed :=
    Routines.closed_ofGraph (Build.isClosed_ofProgram p) hne (Options.lt_size_of_roots hroots)
  rcases hclosed.exits r hr b hb t ht with hin | ⟨q, hq, rfl⟩
  · exact absurd hin hout
  · exact ⟨q, hq, rfl, fun heq => hout (heq ▸ hentry)⟩

theorem arisesFrom_of_decompile (he : (r.decompile p g rs o).1 = .error e) :
    e.ArisesFrom (r.Runs g) := by
  have hstandard := h.standard
  have hcode : ∀ b, Routines.Reaches g r b → ∀ i ∈ (g.block b).code, r.Runs g i := fun b hb i hi =>
    ⟨b, hstandard.mem_blocks hb, hb, hi⟩
  have houtside : ∀ t, (r.surroundings g rs).away t → rs.atEntry? t ≠ none := by
    rintro t ⟨q, hq, rfl, -⟩ hnone
    have hentry := List.find?_eq_none.1 hnone q hq
    simp at hentry
  have hinside : ∀ t, (r.surroundings g rs).away t → t ∉ r.blocks := by
    rintro t ⟨q, hq, rfl, hne⟩ hin
    exact h.separate.not_mem_blocks h.mem_all hq hne hin
  let c : Generator := ⟨p, g, rs, r, o.maxInlineExpression, none⟩
  have hgenerate : (c.generate (Layout.ofRoutine g r).tree.1).1 = .error e := he
  refine arisesFrom_of_generate (fun hstructured => ?_) (fun hdispatch => ?_) hgenerate
  · have hserves : c.Serves (r.surroundings g rs) (r.Runs g) :=
        ⟨rfl, hcode, fun t ht hin => absurd hin (hinside t ht), fun t ht _ => houtside t ht⟩
    exact safe_nodes hserves [] _
      (hstandard.wellFormed_tree (fun b t hb ht hout => h.away hb ht hout) hstructured) _
  · rw [Layout.tree_eq_dispatch hdispatch]
    let u : Surroundings :=
      ⟨g, Routines.Reaches g r, fun t => t ∈ r.blocks ∨ (r.surroundings g rs).away t⟩
    refine safe_dispatchLoop (u := u) rfl hcode (fun b hb => ?_) (fun t ht hout => ?_) _
    · have hreach := hstandard.mem_order.1 hb
      refine ⟨hreach, fun t ht => ?_⟩
      by_cases hin : t ∈ r.blocks
      · exact .inl hin
      · exact .inr (h.away hreach ht hin)
    · exact houtside t (ht.resolve_left hout)

end Program.HasRoutine

/-- Trees meet the generator's expectations. In a structured tree every jump out of it is to the
entry of another routine, every break and continue stands in a loop that it names, and no break is
for a loop that ends by its own test. So a routine has no code only for a value, for the stack, or
for an instruction that its entry reaches, and never for the shape of its tree. -/
theorem decompile_fails_only_for_code {p : Program} {o : Options} {g : Graph} {rs : Routines}
    {r : Routine} (h : p.HasRoutine o g rs r) :
    ((Layout.ofRoutine g r).tree.1.structured = true →
      (r.surroundings g rs).AllWellFormed [] (Layout.ofRoutine g r).tree.1.nodes) ∧
    ∀ e, (r.decompile p g rs o).1 = .error e → e.ArisesFrom (r.Runs g) ∧ ¬ e.IsForShape := by
  refine ⟨fun hstructured => ?_, fun e he => ?_⟩
  · exact h.standard.wellFormed_tree (fun b t hb ht hout => h.away hb ht hout) hstructured
  · have harises := h.arisesFrom_of_decompile he
    exact ⟨harises, harises.not_isForShape⟩

/-- A search through rows that ends in a routine of its own, or with a byte that is found and an
instruction that has no code. -/
def rowSearch : Program :=
  Draft.start 0x8000
    |>.label "Start" |>.atLabel .jsr "Clear" |>.immediate .ldx 3
    |>.label "Row" |>.zeroPage .ldy 0x10
    |>.label "Column" |>.op .lda (.indexed (.address 0x2000) .y .absolute) |>.atLabel .beq "Found"
      |>.implied .dey |>.atLabel .bne "Column" |>.implied .dex |>.atLabel .bne "Row"
      |>.atLabel .jmp "Clear"
    |>.label "Found" |>.implied .brk
    |>.label "Clear" |>.immediate .lda 0 |>.implied .rts
    |>.program

/-- The search leaves both loops by breaks and goes on at a row by name; its code is refused for the
instruction behind them. -/
theorem rowSearch_fails_only_for_code :
    ∃ g rs r, rowSearch.HasRoutine {} g rs r ∧ (Layout.ofRoutine g r).tree.1.structured = true ∧
      (r.surroundings g rs).AllWellFormed [] (Layout.ofRoutine g r).tree.1.nodes ∧
      ∃ e, (r.decompile rowSearch g rs {}).1 = .error e ∧ e = .unsupported "Found" "BRK" ∧
        e.ArisesFrom (r.Runs g) ∧ ¬ e.IsForShape := by
  have hroutine : rowSearch.HasRoutine {} rowSearch.graph rowSearch.routines rowSearch.first :=
    ⟨[0], rfl, rfl, by decide, rfl, List.mem_cons_self⟩
  have hstructured : rowSearch.layout.tree.1.structured = true := by decide +kernel
  have herror : ∀ x : Except GenerationError FunctionDef,
      (match x with | .error e => some e | .ok _ => none) = some (.unsupported "Found" "BRK") →
        x = .error (.unsupported "Found" "BRK") := by
    rintro (e | f) h
    · cases h
      rfl
    · cases h
  have hexpected :=
    herror (rowSearch.first.decompile rowSearch rowSearch.graph rowSearch.routines {}).1
    (by decide +kernel)
  obtain ⟨hwell, hfails⟩ := decompile_fails_only_for_code hroutine
  exact ⟨_, _, _, hroutine, hstructured, hwell hstructured, _, hexpected, rfl, hfails _ hexpected⟩

end Lift6502
