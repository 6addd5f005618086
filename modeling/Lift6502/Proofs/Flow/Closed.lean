import Lift6502.Options.Basic
import Lift6502.Proofs.Flow.Edges
import Mathlib.Data.List.Nodup

/-!
# Graphs of programs are closed

Exits, calls, labels and roots lead to blocks of the graph; only a conditional branch has two exits.
-/

namespace Lift6502

theorem length_slotsOf_le (waiting : List String) (offset : UInt16) (lines : List Line) :
    (slotsOf waiting offset lines).length ≤ lines.length + 1 := by
  induction lines generalizing waiting offset with
  | nil =>
    rw [slotsOf]
    split <;> simp
  | cons line rest ih =>
    rw [slotsOf]
    split
    · exact Nat.succ_le_succ (ih _ _)
    · exact Nat.succ_le_succ (ih _ _)
    · exact Nat.le_succ_of_le (ih _ _)
    · exact Nat.le_succ_of_le (ih _ _)

def Graph.ReturnsAtEnds (g : Graph) : Prop :=
  ∀ b, g.successors b ≠ [] → ∀ i ∈ (g.block b).code, i.opcode ≠ .rts

theorem Block.exists_branch_of_isConditional {block : Block} (h : block.isConditional = true) :
    ∃ i, block.code.getLast? = some i ∧ i.opcode.isConditionalBranch = true := by
  unfold Block.isConditional at h
  split at h
  · next i hi => exact ⟨i, (Option.filter_eq_some_iff.1 hi).1, h⟩
  · cases h

theorem Opcode.isControlTransfer_of_isConditionalBranch {o : Opcode}
    (h : o.isConditionalBranch = true) : o.isControlTransfer = true := by
  rw [isControlTransfer, h]
  rfl

variable {label : String}

namespace Build

variable {p : Program} {k t : BlockId} {i : Instruction}

theorem lt_size_of_start {m : Nat} (h : (m, t) ∈ (read p).starts) :
    t < (ofProgram p).graph.size := by
  rw [(sameBlocks_ofProgram p).size]
  exact (pieces_read p).lt_of_mem h

theorem size_ofProgram_le (p : Program) : (ofProgram p).graph.size ≤ p.lines.length + 1 := by
  have hstarts := starts_read p
  have hids := congrArg List.length (pieces_read p).ids
  rw [List.length_map, List.length_range] at hids
  rw [(sameBlocks_ofProgram p).size, ← hids, ← List.length_map (f := (·.1))]
  have hsub : (read p).starts.map (·.1) ⊆ List.range p.slots.length := by
    intro m hm
    obtain ⟨s, hs, rfl⟩ := List.mem_map.1 hm
    exact List.mem_range.2 (hstarts.bound s hs)
  have hnodup : ((read p).starts.map (·.1)).Nodup := hstarts.ascending.imp Nat.ne_of_lt
  calc ((read p).starts.map (·.1)).length ≤ (List.range p.slots.length).length :=
        (List.subperm_of_subset hnodup hsub).length_le
    _ = p.slots.length := List.length_range
    _ ≤ p.lines.length + 1 := length_slotsOf_le [] 0 p.lines

theorem lt_size_of_locate? {target : Target} (h : (read p).locate? p p.slots target = some t) :
    t < (ofProgram p).graph.size := by
  rcases locate?_cases h with ⟨_, m, _, -, hm, -⟩ | ⟨m, _, hm, -⟩
  · exact lt_size_of_start hm
  · exact lt_size_of_start hm

theorem isClosed_ofProgram (p : Program) : (ofProgram p).graph.IsClosed := by
  intro block hblock
  obtain ⟨k, hk⟩ := List.mem_iff_getElem?.1 hblock
  rw [Array.getElem?_toList] at hk
  have hlt : k < (ofProgram p).graph.size := (Array.getElem?_eq_some_iff.1 hk).1
  have heq : block = (ofProgram p).graph.block k := by
    rw [Graph.getElem?_blocks hlt] at hk
    exact (Option.some.inj hk).symm
  have hlt' := hlt
  rw [(sameBlocks_ofProgram p).size] at hlt'
  obtain ⟨m, stop, -, hpiece, hending⟩ := exists_piece hlt'
  subst heq
  constructor
  · intro t ht
    obtain ⟨kind, hexit⟩ := Block.mem_successors_iff.1 ht
    cases kind with
    | fallThrough => exact lt_size_of_start (started_of_fallThrough hending hexit)
    | branch =>
      obtain ⟨_, _, _, _, _, hlocate⟩ := exists_of_branch hpiece hending hexit
      exact lt_size_of_locate? hlocate
  · rintro ⟨index, t⟩ ht
    obtain ⟨_, _, _, _, _, hlocate⟩ := exists_of_call hpiece ht
    exact lt_size_of_locate? hlocate

theorem lt_size_of_code (hi : i ∈ ((ofProgram p).graph.block k).code) :
    k < (read p).graph.size := by
  rw [← (sameBlocks_ofProgram p).size]
  by_contra hk
  rw [Graph.block_eq_default hk] at hi
  cases hi

theorem isConditionalBranch_of_fallThrough
    (hlast : ((ofProgram p).graph.block k).code.getLast? = some i)
    (htransfer : i.opcode.isControlTransfer = true)
    (hfall : ((ofProgram p).graph.block k).fallThrough.isSome = true) :
    i.opcode.isConditionalBranch = true := by
  obtain ⟨m, stop, -, -, hending⟩ := exists_piece (lt_size_of_code (List.mem_of_getLast? hlast))
  rw [code_ofProgram] at hlast
  cases hending with
  | falls plain | rejoins plain | runsOut plain =>
    rw [plain i hlast] at htransfer
    cases htransfer
  | transfer last _ _ _ _ fall pending =>
    -- Nothing fell through while the slots were read, so the exit was pending.
    cases hlast.symm.trans last
    obtain ⟨u, hu⟩ := Option.isSome_iff_exists.1 hfall
    rcases exit?_cases .fallThrough hu with hbefore | ⟨e, he, hkind, -⟩
    · have hbefore' : ((read p).graph.block k).fallThrough = some u := hbefore
      rw [fall] at hbefore'
      cases hbefore'
    · rw [pending] at he
      rcases mem_exitsAt he with ⟨t, -, rfl⟩ | ⟨hcond, -⟩
      · cases hkind
      · exact hcond

theorem exists_last_of_branch (h : ((ofProgram p).graph.block k).branch = some t) :
    ∃ i, ((ofProgram p).graph.block k).code.getLast? = some i ∧
      i.opcode.isControlTransfer = true ∧ i.jumpTarget?.isSome = true := by
  have hk : k < (ofProgram p).graph.size := by
    by_contra hk
    rw [Graph.block_eq_default hk] at h
    cases h
  rw [(sameBlocks_ofProgram p).size] at hk
  obtain ⟨m, stop, -, hpiece, hending⟩ := exists_piece hk
  obtain ⟨i, target, hlast, htransfer, htarget, -⟩ := exists_of_branch hpiece hending h
  exact ⟨i, hlast, htransfer, Option.isSome_of_eq_some htarget⟩

theorem isConditional_of_exits (hbranch : ((ofProgram p).graph.block k).branch = some t)
    (hfall : ((ofProgram p).graph.block k).fallThrough.isSome = true) :
    ((ofProgram p).graph.block k).isConditional = true := by
  obtain ⟨i, hlast, htransfer, -⟩ := exists_last_of_branch hbranch
  have hterminator : ((ofProgram p).graph.block k).terminator? = some i := by
    rw [Block.terminator?, hlast, Option.filter_some, if_pos htransfer]
  rw [Block.isConditional, hterminator]
  exact isConditionalBranch_of_fallThrough hlast htransfer hfall

/-! ## Transfers of control -/

theorem getLast?_of_transfer (hi : i ∈ ((ofProgram p).graph.block k).code)
    (htransfer : i.opcode.isControlTransfer = true) :
    ((ofProgram p).graph.block k).code.getLast? = some i := by
  obtain ⟨m, stop, -, hpiece, -⟩ := exists_piece (lt_size_of_code hi)
  rw [code_ofProgram] at hi ⊢
  by_contra hne
  have hplain := hpiece.straight i (List.mem_dropLast_of_mem_of_ne_getLast? hi fun h => hne h.symm)
  rw [hplain] at htransfer
  cases htransfer

theorem returnsAtEnds_ofProgram (p : Program) : (ofProgram p).graph.ReturnsAtEnds := by
  intro k hsuccessors i hi hrts
  have htransfer : i.opcode.isControlTransfer = true := by
    rw [hrts]
    rfl
  have hlast := getLast?_of_transfer hi htransfer
  obtain ⟨t, ht⟩ := List.exists_mem_of_ne_nil _ hsuccessors
  rcases Block.exists_exit?_iff.1 (Block.mem_successors_iff.1 ht) with hfall | hbranch
  · have hcond :=
      isConditionalBranch_of_fallThrough hlast htransfer (Option.isSome_of_eq_some hfall)
    rw [hrts] at hcond
    cases hcond
  · obtain ⟨j, hj, -, htarget⟩ := exists_last_of_branch hbranch
    cases hlast.symm.trans hj
    rw [Instruction.jumpTarget?, hrts] at htarget
    split at htarget <;> cases htarget

theorem exists_behind (hcond : ((ofProgram p).graph.block k).isConditional = true) :
    ∃ start stop, (start, k) ∈ (ofProgram p).starts ∧
      Covers p p.slots start ((ofProgram p).graph.block k).code stop ∧
      (((ofProgram p).graph.block k).fallThrough.isSome = true ↔
        ∃ slot, p.slots[stop]? = some slot ∧ RunsBehind p p.slots stop slot) := by
  obtain ⟨i, hlast, hbranch⟩ := Block.exists_branch_of_isConditional hcond
  obtain ⟨start, stop, hstart, hpiece, hending⟩ :=
    exists_piece (lt_size_of_code (List.mem_of_getLast? hlast))
  have htransfer := Opcode.isControlTransfer_of_isConditionalBranch hbranch
  rw [code_ofProgram] at hlast ⊢
  refine ⟨start, stop, by rw [(sameBlocks_ofProgram p).starts]; exact hstart, hpiece.covers, ?_⟩
  have hafter : AfterTransfer p.slots stop := by
    cases hending with
    | falls plain | rejoins plain | runsOut plain =>
      rw [plain i hlast] at htransfer
      cases htransfer
    | transfer _ transfers stop_eq at_index item _ _ =>
      exact ⟨_, _, _, stop_eq, at_index, item, transfers⟩
  have hgoes : i.opcode.isUnconditionalTransfer = false := by
    revert hbranch
    cases i.opcode <;> decide
  have hstarts := starts_read p
  rw [fallThrough_eq_lookup hpiece hending hlast hgoes]
  constructor
  · intro hsome
    obtain ⟨t, ht⟩ := Option.isSome_iff_exists.1 hsome
    have hmem := hstarts.lookup_iff.1 ht
    have hlt : stop < p.slots.length := hstarts.bound _ hmem
    have hslot := List.getElem?_eq_getElem hlt
    exact ⟨_, hslot, (hstarts.behind stop _ hlt hslot hafter).1 ⟨t, hmem⟩⟩
  · rintro ⟨slot, hslot, hruns⟩
    have hlt := (List.getElem?_eq_some_iff.1 hslot).1
    obtain ⟨t, ht⟩ := (hstarts.behind stop slot hlt hslot hafter).2 hruns
    rw [hstarts.lookup_iff.2 ht]
    rfl

theorem lt_size_of_labelled? (h : (ofProgram p).graph.labelled? label = some t) :
    t < (ofProgram p).graph.size := by
  rw [Graph.labelled?, (sameBlocks_ofProgram p).labels] at h
  obtain ⟨m, slot, hm, -, -⟩ := (pieces_read p).label label t (mem_of_lookup h)
  exact lt_size_of_start hm

theorem lt_size_of_entry (h : (ofProgram p).graph.entry = some t) :
    t < (ofProgram p).graph.size := by
  rw [(sameBlocks_ofProgram p).entry] at h
  rw [(sameBlocks_ofProgram p).size]
  exact (pieces_read p).entry t h

end Build

namespace Options

variable {p : Program} {o : Options}

theorem rootAt_eq_ok {g : Graph} {b : BlockId} (h : rootAt g label = .ok b) :
    g.labelled? label = some b := by
  unfold rootAt at h
  split at h
  · next c hc =>
    cases h
    exact hc
  · cases h

theorem exists_of_mem_mapM {α β ε : Type} {f : α → Except ε β} {l : List α} {bs : List β}
    (h : l.mapM f = .ok bs) {b : β} (hb : b ∈ bs) : ∃ a ∈ l, f a = .ok b := by
  induction l generalizing bs with
  | nil =>
    cases h
    cases hb
  | cons a rest ih =>
    rw [List.mapM_cons] at h
    obtain ⟨b', hb', h⟩ := Listing.Reader.bind_eq_ok h
    obtain ⟨bs', hbs', h⟩ := Listing.Reader.bind_eq_ok h
    cases h
    rcases List.mem_cons.1 hb with rfl | hb
    · exact ⟨a, List.mem_cons_self, hb'⟩
    · obtain ⟨c, hc, hcb⟩ := ih hbs' hb
      exact ⟨c, List.mem_cons_of_mem a hc, hcb⟩

theorem lt_size_of_roots {roots : List BlockId}
    (h : o.roots (Build.ofProgram p).graph = .ok roots) :
    ∀ e ∈ roots, e < (Build.ofProgram p).graph.size := by
  have hgoal : ∀ e, (∃ label, rootAt (Build.ofProgram p).graph label = .ok e) →
      e < (Build.ofProgram p).graph.size := by
    rintro e ⟨label, hlabel⟩
    exact Build.lt_size_of_labelled? (rootAt_eq_ok hlabel)
  -- The further roots have labels; the main one has a label, or it is the entry of the graph.
  have hmain : ∀ main : Option BlockId, (∀ e, main = some e → e < (Build.ofProgram p).graph.size) →
      (do
        let extra ← o.extraEntries.mapM (rootAt (Build.ofProgram p).graph)
        return (main.toList ++ extra).eraseDups : Except UnknownEntry (List BlockId)) = .ok roots →
      ∀ e ∈ roots, e < (Build.ofProgram p).graph.size := by
    intro main hlt hrest e he
    obtain ⟨extra, hextra, hrest⟩ := Listing.Reader.bind_eq_ok hrest
    cases hrest
    rw [List.mem_eraseDups, List.mem_append] at he
    rcases he with he | he
    · exact hlt e (Option.mem_toList.1 he)
    · obtain ⟨label, -, hlabel⟩ := exists_of_mem_mapM hextra he
      exact hgoal e ⟨label, hlabel⟩
  unfold Options.roots at h
  simp only at h
  split at h
  · next label hlabel =>
    obtain ⟨main, hroot, h⟩ := Listing.Reader.bind_eq_ok h
    refine hmain main (fun e he => ?_) h
    apply hgoal e
    refine ⟨label, ?_⟩
    cases hat : rootAt (Build.ofProgram p).graph label with
    | error e' =>
      rw [hat] at hroot
      cases hroot
    | ok b =>
      rw [hat, he] at hroot
      cases hroot
      rfl
  · exact hmain _ (fun e he => Build.lt_size_of_entry he) h

end Options

theorem Graph.verify_of_ofProgram {p : Program} {g : Graph} (h : (Graph.ofProgram p).1 = .ok g) :
    g.verify = .ok () := by
  unfold Graph.ofProgram at h
  simp only at h
  split at h
  · next hok => rw [← Except.ok.inj h]; exact hok
  · cases h

end Lift6502
