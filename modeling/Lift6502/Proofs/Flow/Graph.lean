import Lift6502.Proofs.Flow.Walk

/-!
# Laws of block graphs

What an operation on a graph does to each block, and graphs whose exits and calls stay inside them.
-/

namespace Lift6502

variable {α β : Type} {l : List (α × β)} {a : α} {b : β}

theorem lookup_eq_some_iff [BEq α] [LawfulBEq α]
    (h : (l.map (·.1)).Nodup) : l.lookup a = some b ↔ (a, b) ∈ l := by
  induction l with
  | nil => simp
  | cons x rest ih =>
    obtain ⟨a', b'⟩ := x
    rw [List.map_cons, List.nodup_cons] at h
    by_cases ha : a = a'
    · subst ha
      have hnot : (a, b) ∉ rest := fun hmem => h.1 (List.mem_map.2 ⟨(a, b), hmem, rfl⟩)
      simp only [List.lookup_cons, beq_self_eq_true, List.mem_cons, Prod.mk.injEq, true_and, hnot,
        or_false, Option.some.injEq]
      exact eq_comm
    · have hbeq : (a == a') = false := by simpa using ha
      simp only [List.lookup_cons, hbeq, List.mem_cons, Prod.mk.injEq, ha, false_and, false_or]
      exact ih h.2

theorem mem_of_lookup [BEq α] [LawfulBEq α] (h : l.lookup a = some b) : (a, b) ∈ l := by
  obtain ⟨front, back, rfl, -⟩ := List.lookup_eq_some_iff.1 h
  exact List.mem_append_right front List.mem_cons_self

variable {kind other : ExitKind}

namespace Block

variable {t : BlockId} {block : Block}

theorem exit?_withExit_self (block : Block) (kind : ExitKind) :
    (block.withExit kind t).exit? kind = some t := by
  cases kind <;> rfl

theorem exit?_withExit_of_ne (block : Block) (h : kind ≠ other) :
    (block.withExit kind t).exit? other = block.exit? other := by
  cases kind <;> cases other
  · exact absurd rfl h
  · rfl
  · rfl
  · exact absurd rfl h

theorem exit?_enteredFrom (block : Block) (entered : BlockSet) (kind : ExitKind) :
    { block with enteredFrom := entered : Block }.exit? kind = block.exit? kind := by
  cases kind <;> rfl

theorem exists_exit?_iff :
    (∃ kind, block.exit? kind = some t) ↔ block.fallThrough = some t ∨ block.branch = some t := by
  constructor
  · rintro ⟨kind, h⟩
    cases kind with
    | fallThrough => exact .inl h
    | branch => exact .inr h
  · rintro (h | h)
    · exact ⟨.fallThrough, h⟩
    · exact ⟨.branch, h⟩

theorem mem_successors_iff : t ∈ block.successors ↔ ∃ kind, block.exit? kind = some t := by
  rw [exists_exit?_iff, Block.successors]
  cases block.fallThrough <;> cases block.branch <;> grind

end Block

namespace Graph

variable {g : Graph} {b k s t : BlockId} {α : Type} {f : Block → Block}

/-! ## Blocks after an operation -/

theorem getElem?_blocks (h : b < g.size) : g.blocks[b]? = some (g.block b) := by
  rw [block, Array.getD_eq_getD_getElem?, Array.getElem?_eq_getElem h, Option.getD_some]

theorem block_eq_default (h : ¬ b < g.size) : g.block b = default := by
  rw [block, Array.getD_eq_getD_getElem?, Array.getElem?_eq_none (Nat.le_of_not_lt h),
    Option.getD_none]

theorem block_mem (h : b < g.size) : g.block b ∈ g.blocks.toList :=
  Array.mem_toList_iff.2 (Array.mem_of_getElem? (getElem?_blocks h))

section

variable (f : Block → Block)

@[simp] theorem size_modify : (g.modify k f).size = g.size :=
  Array.size_modify

@[simp] theorem labels_modify : (g.modify k f).labels = g.labels := rfl

@[simp] theorem entry_modify : (g.modify k f).entry = g.entry := rfl

theorem block_modify_self (h : k < g.size) : (g.modify k f).block k = f (g.block k) := by
  have hsome : (g.modify k f).blocks[k]? = some (f (g.block k)) := by
    rw [modify, Array.getElem?_modify, if_pos rfl, getElem?_blocks h, Option.map_some]
  rw [getElem?_blocks (by rwa [size_modify])] at hsome
  exact Option.some.inj hsome

theorem block_modify_of_ne (h : k ≠ b) : (g.modify k f).block b = g.block b := by
  rw [block, block, modify, Array.getD_eq_getD_getElem?, Array.getD_eq_getD_getElem?,
    Array.getElem?_modify, if_neg h]

end

theorem map_block_modify (view : Block → α) (hf : ∀ block, view (f block) = view block) :
    view ((g.modify k f).block b) = view (g.block b) := by
  by_cases hkb : k = b
  · subst hkb
    by_cases hk : k < g.size
    · rw [block_modify_self f hk, hf]
    · rw [block_eq_default hk, block_eq_default (by rwa [size_modify])]
  · rw [block_modify_of_ne f hkb]

@[simp] theorem size_push (block : Block) : (g.push block).size = g.size + 1 := Array.size_push _

theorem block_push_self (block : Block) : (g.push block).block g.size = block := by
  rw [Graph.block, push, Array.getD_eq_getD_getElem?, size, Array.getElem?_push_size,
    Option.getD_some]

theorem block_push_of_lt (block : Block) (h : b < g.size) : (g.push block).block b = g.block b := by
  rw [Graph.block, Graph.block, push, Array.getD_eq_getD_getElem?, Array.getD_eq_getD_getElem?,
    Array.getElem?_push_lt h, Array.getElem?_eq_getElem h]

theorem map_block_addEdge (view : Block → α)
    (hview : ∀ block entered, view { block with enteredFrom := entered } = view block)
    (kind : ExitKind) : view ((g.addEdge s t kind).block b) =
      view ((g.modify s (·.withExit kind t)).block b) := by
  unfold addEdge
  simp only
  rw [map_block_modify view fun block => hview block _]
  split
  · split
    · rw [map_block_modify view fun block => hview block _]
    · rfl
  · rfl

theorem exists_block_addEdge (g : Graph) (s t b : BlockId) (kind : ExitKind) :
    ∃ entered, (g.addEdge s t kind).block b =
      { (g.modify s (·.withExit kind t)).block b with enteredFrom := entered } := by
  have h := map_block_addEdge (g := g) (s := s) (t := t) (b := b)
    (fun block => { block with enteredFrom := ∅ }) (fun _ _ => rfl) kind
  simp only [Block.mk.injEq] at h
  obtain ⟨hlabel, hoffset, hcode, helisions, hcalls, hfall, hbranch, -⟩ := h
  refine ⟨((g.addEdge s t kind).block b).enteredFrom, ?_⟩
  simp only
  rw [← hlabel, ← hoffset, ← hcode, ← helisions, ← hcalls, ← hfall, ← hbranch]

theorem map_block_addEdge_of_frame (view : Block → α)
    (hentered : ∀ block entered, view { block with enteredFrom := entered } = view block)
    (hexit : ∀ block : Block, view (block.withExit kind t) = view block) :
    view ((g.addEdge s t kind).block b) = view (g.block b) := by
  rw [map_block_addEdge view hentered, map_block_modify view hexit]

@[simp] theorem size_addEdge (kind : ExitKind) : (g.addEdge s t kind).size = g.size := by
  unfold addEdge
  simp only [size_modify]
  split
  · split <;> simp
  · simp

@[simp] theorem labels_addEdge (kind : ExitKind) : (g.addEdge s t kind).labels = g.labels := by
  unfold addEdge
  simp only [labels_modify]
  split
  · split <;> simp
  · simp

@[simp] theorem entry_addEdge (kind : ExitKind) : (g.addEdge s t kind).entry = g.entry := by
  unfold addEdge
  simp only [entry_modify]
  split
  · split <;> simp
  · simp

theorem exit?_addEdge_self (kind : ExitKind) (h : s < g.size) :
    ((g.addEdge s t kind).block s).exit? kind = some t := by
  rw [map_block_addEdge (·.exit? kind) fun block entered => block.exit?_enteredFrom entered kind,
    block_modify_self _ h, Block.exit?_withExit_self]

theorem exit?_addEdge_of_ne (h : s ≠ b ∨ kind ≠ other) :
    ((g.addEdge s t kind).block b).exit? other = (g.block b).exit? other := by
  rw [map_block_addEdge (·.exit? other) fun block entered => block.exit?_enteredFrom entered other]
  by_cases hsb : s = b
  · have hkind := h.resolve_left (not_not_intro hsb)
    exact map_block_modify (·.exit? other) fun block => block.exit?_withExit_of_ne hkind
  · rw [block_modify_of_ne _ hsb]

/-! ## Graphs that are closed -/

def IsClosed (g : Graph) : Prop :=
  ∀ block ∈ g.blocks.toList,
    (∀ t ∈ block.successors, t < g.size) ∧ ∀ call ∈ block.calls, call.2 < g.size

instance (g : Graph) : Decidable g.IsClosed :=
  inferInstanceAs (Decidable (∀ block ∈ g.blocks.toList,
    (∀ t ∈ block.successors, t < g.size) ∧ ∀ call ∈ block.calls, call.2 < g.size))

theorem IsClosed.successor_lt (hg : g.IsClosed) (h : t ∈ g.successors b) : t < g.size := by
  have hb : b < g.size := lt_size_of_successors_ne_nil (List.ne_nil_of_mem h)
  exact (hg _ (block_mem hb)).1 t h

theorem IsClosed.call_lt (hg : g.IsClosed) {call : Nat × BlockId}
    (h : call ∈ (g.block b).calls) : call.2 < g.size := by
  by_cases hb : b < g.size
  · exact (hg _ (block_mem hb)).2 call h
  · rw [block_eq_default hb] at h
    exact absurd h List.not_mem_nil

/-! ## Graphs whose two directions agree -/

theorem disagreement?_eq_none (h : g.verify = .ok ()) (hb : b < g.size) :
    g.disagreement? b = none := by
  unfold verify at h
  split at h
  · cases h
  · next hnone => exact List.findSome?_eq_none_iff.1 hnone b (List.mem_range.2 hb)

theorem mem_predecessors_iff (h : g.verify = .ok ()) :
    s ∈ g.predecessors b ↔ b ∈ g.successors s := by
  constructor
  · intro hs
    have hb : b < g.size := by
      by_contra hb
      rw [predecessors, block_eq_default hb] at hs
      exact absurd hs (BlockSet.not_mem_empty s)
    have hagree := disagreement?_eq_none h hb
    unfold disagreement? at hagree
    split at hagree
    · cases hagree
    · split at hagree
      · cases hagree
      · next hnone =>
        have hmem := List.find?_eq_none.1 hnone s hs
        simpa using hmem
  · intro hedge
    have hs : s < g.size := lt_size_of_successors_ne_nil (List.ne_nil_of_mem hedge)
    have hagree := disagreement?_eq_none h hs
    unfold disagreement? at hagree
    split at hagree
    · cases hagree
    · next hnone =>
      have hmem := List.find?_eq_none.1 hnone b hedge
      simpa using hmem

end Graph

end Lift6502
