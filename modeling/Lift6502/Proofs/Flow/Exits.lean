import Lift6502.Proofs.Flow.Build

/-!
# Where the exits of blocks lead

Each pending exit leads to the block at its slot or of its target, so a block that does not jump
away falls through exactly if a block starts behind it.
-/

namespace Lift6502

open Graph

theorem isLabelled_of_finish {slot : Slot} {waiting : List String} {offset : UInt16}
    {lines : List Line} (h : slot ∈ slotsOf waiting offset lines) (hitem : slot.item = .finish) :
    slot.isLabelled = true := by
  induction lines generalizing waiting offset with
  | nil =>
    rw [slotsOf] at h
    split at h
    · exact absurd h List.not_mem_nil
    · next hwaiting =>
      rw [List.mem_singleton.1 h]
      simpa [Slot.isLabelled] using hwaiting
  | cons line rest ih =>
    rw [slotsOf] at h
    split at h
    · rcases List.mem_cons.1 h with rfl | h
      · cases hitem
      · exact ih h
    · rcases List.mem_cons.1 h with rfl | h
      · cases hitem
      · exact ih h
    · exact ih h
    · exact ih h

/-- The slot before this one transfers control. -/
def AfterTransfer (slots : List Slot) (m : Nat) : Prop :=
  ∃ j slot i, m = j + 1 ∧ slots[j]? = some slot ∧ slot.item = .code i ∧
    i.opcode.isControlTransfer = true

/-- Control that runs into this slot runs a `BIT`. -/
def HidesCode (p : Program) (slots : List Slot) (m : Nat) (slot : Slot) : Prop :=
  ∃ bytes, slot.item = .data bytes ∧ (hidingBit? p bytes (slots.drop (m + 1))).isSome = true

/-- There is something to run at this slot for control that gets to it from a branch: code, labelled
data that hides code, or the labels at the end of the program. -/
def RunsBehind (p : Program) (slots : List Slot) (m : Nat) (slot : Slot) : Prop :=
  slot.isCode = true ∨ (slot.isLabelled = true ∧ HidesCode p slots m slot) ∨ slot.item = .finish

namespace Build

variable {p : Program} {slots : List Slot} {b c : Build} {k : BlockId} {n : Nat} {slot : Slot}
  {i : Instruction} {kind : ExitKind} {e : PendingExit} {below : List Slot}

/-! ## Where blocks start -/

theorem starts_copyOn (k : BlockId) (n : Nat) (rest : List Slot) (b : Build) :
    (copyOn k n rest b).starts = b.starts := by
  induction rest generalizing n b with
  | nil => rfl
  | cons slot rest ih =>
    rw [copyOn]
    split
    · rfl
    · split
      · simp only
        split
        · rw [append_eq]
        · rw [ih, append_eq]
      · rfl

theorem starts_fallIntoData (b : Build) (k : BlockId) (n : Nat) (slot : Slot) (bytes : List UInt8)
    (below : List Slot) : (b.fallIntoData p k n slot bytes below).starts = b.starts := by
  unfold fallIntoData
  split
  · rfl
  · exact starts_copyOn _ _ _ _

theorem starts_fallInto (b : Build) (k : BlockId) : (b.fallInto k).starts = b.starts := by
  unfold fallInto
  split <;> rfl

def startsBlock (p : Program) (b : Build) (slot : Slot) (below : List Slot) : Bool :=
  match slot.item with
  | .code _ => b.current.isNone || slot.isLabelled
  | .data bytes => slot.isLabelled && (b.current.isSome || (hidingBit? p bytes below).isSome)
  | .finish => true

theorem starts_addSlot (b : Build) (n : Nat) (slot : Slot) (below : List Slot) :
    (b.addSlot p n slot below).starts =
      b.starts ++ if startsBlock p b slot below then [(n, b.graph.size)] else [] := by
  unfold addSlot startsBlock
  cases hitem : slot.item with
  | code i =>
    cases hcurrent : b.current <;> cases hlabelled : slot.isLabelled <;>
      simp [append_eq, starts_fallInto, openBlock]
  | data bytes =>
    cases hcurrent : b.current <;> cases hlabelled : slot.isLabelled
    · simp
    · by_cases hhides : (hidingBit? p bytes below).isSome = true
      · simp only [if_pos hhides]
        simp [starts_fallIntoData, openBlock, hhides]
      · simp only [if_neg hhides]
        simp [hhides]
    · simp [starts_fallIntoData]
    · simp [starts_fallIntoData, starts_fallInto, openBlock]
  | finish => simp [starts_fallInto, openBlock]

theorem current_addSlot_of_transfer (b : Build) (n : Nat) (below : List Slot)
    (hitem : slot.item = .code i) (h : i.opcode.isControlTransfer = true) :
    (b.addSlot p n slot below).current = none := by
  unfold addSlot
  rw [hitem]
  simp [h]

structure Starts (p : Program) (slots : List Slot) (n : Nat) (b : Build) : Prop where
  bound : ∀ s ∈ b.starts, s.1 < n
  ascending : (b.starts.map (·.1)).Pairwise (· < ·)
  /-- Code starts a block if it is labelled or control cannot fall into it. -/
  code : ∀ m slot, m < n → slots[m]? = some slot → slot.isCode = true →
    slot.isLabelled = true ∨ AfterTransfer slots m → ∃ k, (m, k) ∈ b.starts
  /-- Labelled data starts a block if it hides code. -/
  data : ∀ m slot, m < n → slots[m]? = some slot → HidesCode p slots m slot →
    slot.isLabelled = true → ∃ k, (m, k) ∈ b.starts
  /-- Other data never starts a block. -/
  stops : ∀ m k slot, (m, k) ∈ b.starts → slots[m]? = some slot →
    slot.isCode = true ∨ slot.isLabelled = true ∨ slot.item = .finish
  /-- Behind a transfer of control a block starts where there is something to run. -/
  behind : ∀ m slot, m < n → slots[m]? = some slot → AfterTransfer slots m →
    ((∃ k, (m, k) ∈ b.starts) ↔ RunsBehind p slots m slot)
  after : AfterTransfer slots n → b.current = none

theorem Starts.empty : Starts p slots 0 {} where
  bound := by simp
  ascending := .nil
  code := by simp
  data := by simp
  stops := by simp
  behind := by simp
  after := fun _ => rfl

theorem startsBlock_of_code (hcode : slot.isCode = true)
    (h : slot.isLabelled = true ∨ b.current = none) : startsBlock p b slot below = true := by
  unfold startsBlock
  unfold Slot.isCode at hcode
  split at hcode
  · next i hitem =>
    rw [hitem]
    rcases h with h | h <;> simp [h]
  · cases hcode

theorem startsBlock_of_hidesCode (hhides : HidesCode p slots n slot) (h : slot.isLabelled = true) :
    startsBlock p b slot (slots.drop (n + 1)) = true := by
  obtain ⟨bytes, hitem, hsome⟩ := hhides
  simp [startsBlock, hitem, h, hsome]

theorem stops_of_startsBlock (h : startsBlock p b slot below = true) :
    slot.isCode = true ∨ slot.isLabelled = true ∨ slot.item = .finish := by
  unfold startsBlock at h
  split at h
  · next i hitem => exact .inl (by simp [Slot.isCode, hitem])
  · exact .inr (.inl (Bool.and_eq_true_iff.1 h).1)
  · next hitem => exact .inr (.inr hitem)

theorem startsBlock_iff_runsBehind (h : b.current = none) :
    startsBlock p b slot (slots.drop (n + 1)) = true ↔ RunsBehind p slots n slot := by
  unfold startsBlock RunsBehind HidesCode Slot.isCode
  cases hitem : slot.item <;> simp [h]

theorem Starts.addSlot (h : Starts p slots n b) (hslot : slots[n]? = some slot) :
    Starts p slots (n + 1) (b.addSlot p n slot (slots.drop (n + 1))) := by
  have hstarts := starts_addSlot (p := p) b n slot (slots.drop (n + 1))
  -- Earlier starts stay, and the new one is there if the slot starts a block.
  have hold : ∀ s ∈ b.starts, s ∈ (b.addSlot p n slot (slots.drop (n + 1))).starts := by
    intro s hs
    rw [hstarts]
    exact List.mem_append_left _ hs
  have hnew : startsBlock p b slot (slots.drop (n + 1)) = true →
      ∃ k, (n, k) ∈ (b.addSlot p n slot (slots.drop (n + 1))).starts := by
    intro hopens
    rw [hstarts, if_pos hopens]
    exact ⟨b.graph.size, List.mem_append_right _ (List.mem_singleton_self _)⟩
  have hcases : ∀ s ∈ (b.addSlot p n slot (slots.drop (n + 1))).starts,
      s ∈ b.starts ∨ (s.1 = n ∧ startsBlock p b slot (slots.drop (n + 1)) = true) := by
    intro s hs
    rw [hstarts] at hs
    rcases List.mem_append.1 hs with hs | hs
    · exact .inl hs
    · split at hs
      · next hopens =>
        rw [List.mem_singleton.1 hs]
        exact .inr ⟨rfl, hopens⟩
      · exact absurd hs List.not_mem_nil
  refine ⟨?_, ?_, ?_, ?_, ?_, ?_, ?_⟩
  · intro s hs
    rcases hcases s hs with hs | ⟨hs, -⟩
    · exact Nat.lt_succ_of_lt (h.bound s hs)
    · omega
  · rw [hstarts, List.map_append, List.pairwise_append]
    refine ⟨h.ascending, ?_, ?_⟩
    · split <;> simp
    · intro x hx y hy
      obtain ⟨s, hs, rfl⟩ := List.mem_map.1 hx
      have hlt := h.bound s hs
      split at hy
      · simp only [List.map_cons, List.map_nil, List.mem_singleton] at hy
        omega
      · exact absurd hy List.not_mem_nil
  · intro m slot' hm hslot' hcode hstop
    rcases Nat.lt_succ_iff_lt_or_eq.1 hm with hm | rfl
    · obtain ⟨k, hk⟩ := h.code m slot' hm hslot' hcode hstop
      exact ⟨k, hold _ hk⟩
    · cases hslot.symm.trans hslot'
      exact hnew (startsBlock_of_code hcode (hstop.imp_right h.after))
  · intro m slot' hm hslot' hhides hlabelled
    rcases Nat.lt_succ_iff_lt_or_eq.1 hm with hm | rfl
    · obtain ⟨k, hk⟩ := h.data m slot' hm hslot' hhides hlabelled
      exact ⟨k, hold _ hk⟩
    · cases hslot.symm.trans hslot'
      exact hnew (startsBlock_of_hidesCode hhides hlabelled)
  · intro m k slot' hm hslot'
    rcases hcases _ hm with hm | ⟨hn, hopens⟩
    · exact h.stops m k slot' hm hslot'
    · simp only at hn
      subst hn
      cases hslot.symm.trans hslot'
      exact stops_of_startsBlock hopens
  · intro m slot' hm hslot' htransfer
    rcases Nat.lt_succ_iff_lt_or_eq.1 hm with hm | rfl
    · refine (exists_congr fun k => ⟨fun hk => ?_, hold _⟩).trans
        (h.behind m slot' hm hslot' htransfer)
      rcases hcases _ hk with hk | ⟨hn, -⟩
      · exact hk
      · exact absurd hn (Nat.ne_of_lt hm)
    · cases hslot.symm.trans hslot'
      refine Iff.trans ⟨?_, hnew⟩ (startsBlock_iff_runsBehind (h.after htransfer))
      rintro ⟨k, hk⟩
      rcases hcases _ hk with hk | ⟨-, hopens⟩
      · exact absurd (h.bound _ hk) (Nat.lt_irrefl m)
      · exact hopens
  · rintro ⟨j, slot', i, hj, hslot', hitem, htransfer⟩
    have hjn : j = n := by omega
    subst hjn
    cases hslot.symm.trans hslot'
    exact current_addSlot_of_transfer b j _ hitem htransfer

theorem starts_read (p : Program) : Starts p p.slots p.slots.length (read p) :=
  read_invariant p Starts.empty fun _ _ _ hslot h => h.addSlot hslot

theorem Starts.lookup_iff (h : Starts p slots n b) {m : Nat} :
    b.starts.lookup m = some k ↔ (m, k) ∈ b.starts :=
  lookup_eq_some_iff (h.ascending.imp Nat.ne_of_lt)

/-! ## Leading exits to their blocks -/

def destination? (b : Build) (p : Program) (slots : List Slot) (e : PendingExit) : Option BlockId :=
  match e.destination with
  | .slot index => b.starts.lookup index
  | .target t => b.locate? p slots t

/-- The parts of a block that leading exits and calls to their blocks leaves alone. -/
def contents (block : Block) : Option String × UInt16 × List Instruction × List Elision :=
  (block.label, block.offset, block.code, block.elisions)

structure SameBlocks (b c : Build) : Prop where
  size : c.graph.size = b.graph.size
  starts : c.starts = b.starts
  labels : c.graph.labels = b.graph.labels
  entry : c.graph.entry = b.graph.entry
  calls : c.calls = b.calls
  contents : ∀ k, contents (c.graph.block k) = contents (b.graph.block k)

theorem SameBlocks.refl (b : Build) : SameBlocks b b := ⟨rfl, rfl, rfl, rfl, rfl, fun _ => rfl⟩

theorem SameBlocks.trans {d : Build} (h : SameBlocks b c) (h' : SameBlocks c d) :
    SameBlocks b d where
  size := h'.size.trans h.size
  starts := h'.starts.trans h.starts
  labels := h'.labels.trans h.labels
  entry := h'.entry.trans h.entry
  calls := h'.calls.trans h.calls
  contents := fun k => (h'.contents k).trans (h.contents k)

theorem SameBlocks.locate? (h : SameBlocks b c) (t : Target) :
    c.locate? p slots t = b.locate? p slots t := by
  unfold Build.locate? labelled?
  rw [h.labels, h.starts]

theorem SameBlocks.destination? (h : SameBlocks b c) (e : PendingExit) :
    c.destination? p slots e = b.destination? p slots e := by
  unfold Build.destination?
  rw [h.starts]
  cases e.destination with
  | slot index => rfl
  | target t => exact h.locate? t

section

variable (b : Build) (e : PendingExit)

theorem sameBlocks_settleExit : SameBlocks b (settleExit p slots b e) := by
  unfold settleExit
  simp only
  split
  · refine ⟨size_addEdge _, rfl, labels_addEdge _, entry_addEdge _, rfl,
      fun k => ?_⟩
    refine map_block_addEdge_of_frame contents (fun _ _ => rfl) fun block => ?_
    cases e.kind <;> rfl
  · exact ⟨rfl, rfl, rfl, rfl, rfl, fun _ => rfl⟩

theorem settleExit_eq {t : BlockId} (h : b.destination? p slots e = some t) :
    settleExit p slots b e = { b with graph := b.graph.addEdge e.source t e.kind } := by
  unfold destination? at h
  unfold settleExit
  cases hdest : e.destination <;> rw [hdest] at h <;> simp only [h]

theorem graph_settleExit_of_none (h : b.destination? p slots e = none) :
    (settleExit p slots b e).graph = b.graph := by
  unfold destination? at h
  unfold settleExit
  cases hdest : e.destination <;> rw [hdest] at h <;> simp only [h] <;> rfl

theorem exit?_settleExit_cases (k : BlockId) (kind : ExitKind) :
    ((settleExit p slots b e).graph.block k).exit? kind = (b.graph.block k).exit? kind ∨
      e.source = k ∧ e.kind = kind ∧ ∃ t, b.destination? p slots e = some t ∧
        ((settleExit p slots b e).graph.block k).exit? kind = some t := by
  cases hdest : b.destination? p slots e with
  | none =>
    rw [graph_settleExit_of_none b e hdest]
    exact .inl rfl
  | some t =>
    rw [settleExit_eq b e hdest]
    by_cases hsame : e.source = k ∧ e.kind = kind
    · obtain ⟨rfl, rfl⟩ := hsame
      by_cases hlt : e.source < b.graph.size
      · exact .inr ⟨rfl, rfl, t, rfl, exit?_addEdge_self _ hlt⟩
      · rw [block_eq_default (by rwa [size_addEdge]), block_eq_default hlt]
        exact .inl rfl
    · exact .inl (exit?_addEdge_of_ne (Classical.not_and_iff_not_or_not.1 hsame))

end

theorem exit?_settleExits {t : BlockId} (exits : List PendingExit)
    (h : ((exits.foldl (settleExit p slots) b).graph.block k).exit? kind = some t) :
    (b.graph.block k).exit? kind = some t ∨
      ∃ e ∈ exits, e.source = k ∧ e.kind = kind ∧ b.destination? p slots e = some t := by
  induction exits generalizing b with
  | nil => exact .inl h
  | cons e rest ih =>
    rcases ih h with hnow | ⟨e', he', hsource, hkind, hdest⟩
    · rcases exit?_settleExit_cases b e k kind with hsame | ⟨hsource, hkind, t', hdest, hexit⟩
      · exact .inl (hsame.symm.trans hnow)
      · exact .inr ⟨e, List.mem_cons_self, hsource, hkind, hdest.trans (hexit.symm.trans hnow)⟩
    · rw [(sameBlocks_settleExit b e).destination?] at hdest
      exact .inr ⟨e', List.mem_cons_of_mem _ he', hsource, hkind, hdest⟩

theorem exit?_settleExits_of_forall_ne (exits : List PendingExit)
    (h : ∀ e ∈ exits, ¬ (e.source = k ∧ e.kind = kind)) :
    ((exits.foldl (settleExit p slots) b).graph.block k).exit? kind = (b.graph.block k).exit?
    kind := by
  induction exits generalizing b with
  | nil => rfl
  | cons e rest ih =>
    rw [List.foldl_cons, ih fun e' he' => h e' (List.mem_cons_of_mem _ he')]
    refine (exit?_settleExit_cases b e k kind).resolve_right fun hnew => ?_
    exact h e List.mem_cons_self ⟨hnew.1, hnew.2.1⟩

theorem isSome_exit?_settleExits (exits : List PendingExit)
    (h : ((b.graph.block k).exit? kind).isSome = true) :
    (((exits.foldl (settleExit p slots) b).graph.block k).exit? kind).isSome = true := by
  induction exits generalizing b with
  | nil => exact h
  | cons e rest ih =>
    refine ih ?_
    rcases exit?_settleExit_cases b e k kind with hsame | ⟨-, -, t, -, hexit⟩
    · rw [hsame]
      exact h
    · rw [hexit]
      rfl

theorem isSome_exit?_of_mem {exits : List PendingExit} (he : e ∈ exits)
    (hlt : e.source < b.graph.size) (hdest : (b.destination? p slots e).isSome = true) :
    (((exits.foldl (settleExit p slots) b).graph.block e.source).exit? e.kind).isSome = true := by
  induction exits generalizing b with
  | nil => exact absurd he List.not_mem_nil
  | cons e' rest ih =>
    have hsame : SameBlocks b (settleExit p slots b e') := sameBlocks_settleExit b e'
    rcases List.mem_cons.1 he with rfl | he
    · obtain ⟨t, ht⟩ := Option.isSome_iff_exists.1 hdest
      refine isSome_exit?_settleExits rest ?_
      rw [settleExit_eq b e ht, exit?_addEdge_self _ hlt]
      rfl
    · refine ih he ?_ ?_
      · rw [hsame.size]
        exact hlt
      · rw [hsame.destination?]
        exact hdest

theorem sameBlocks_settleExits (exits : List PendingExit) (b : Build) :
    SameBlocks b (exits.foldl (settleExit p slots) b) := by
  induction exits generalizing b with
  | nil => exact .refl b
  | cons e rest ih => exact (sameBlocks_settleExit b e).trans (ih _)

theorem calls_settleExits (exits : List PendingExit) (b : Build) (k : BlockId) :
    ((exits.foldl (settleExit p slots) b).graph.block k).calls = (b.graph.block k).calls := by
  induction exits generalizing b with
  | nil => rfl
  | cons e rest ih =>
    rw [List.foldl_cons, ih]
    cases hdest : b.destination? p slots e with
    | none => rw [graph_settleExit_of_none b e hdest]
    | some t =>
      rw [settleExit_eq b e hdest]
      refine map_block_addEdge_of_frame (·.calls) (fun _ _ => rfl) fun block => ?_
      cases e.kind <;> rfl

/-! ## Calls -/

theorem sameBlocks_settleCall (b : Build) (c : PendingCall) :
    SameBlocks b (settleCall p slots b c) := by
  unfold settleCall
  split
  · refine ⟨size_modify _, rfl, rfl, rfl, rfl, fun k => ?_⟩
    exact map_block_modify contents fun _ => rfl
  · exact ⟨rfl, rfl, rfl, rfl, rfl, fun _ => rfl⟩

theorem sameBlocks_settleCalls (calls : List PendingCall) (b : Build) :
    SameBlocks b (calls.foldl (settleCall p slots) b) := by
  induction calls generalizing b with
  | nil => exact .refl b
  | cons c rest ih => exact (sameBlocks_settleCall b c).trans (ih _)

theorem exit?_settleCalls (calls : List PendingCall) (b : Build) (k : BlockId) (kind : ExitKind) :
    ((calls.foldl (settleCall p slots) b).graph.block k).exit? kind = (b.graph.block k).exit?
    kind := by
  induction calls generalizing b with
  | nil => rfl
  | cons c rest ih =>
    rw [List.foldl_cons, ih]
    unfold settleCall
    split
    · refine map_block_modify (·.exit? kind) fun block => ?_
      cases kind <;> rfl
    · rfl

theorem mem_calls_settleCalls {calls : List PendingCall} {x : Nat × BlockId}
    (h : x ∈ ((calls.foldl (settleCall p slots) b).graph.block k).calls) :
    x ∈ (b.graph.block k).calls ∨ ∃ c ∈ calls, c.source = k ∧ c.index = x.1 ∧
      b.locate? p slots c.target = some x.2 := by
  induction calls generalizing b with
  | nil => exact .inl h
  | cons c rest ih =>
    rcases ih h with hnow | ⟨c', hc', hsource, hindex, hlocate⟩
    · unfold settleCall at hnow
      split at hnow
      · next t ht =>
        by_cases hk : c.source = k
        · subst hk
          by_cases hlt : c.source < b.graph.size
          · simp only [block_modify_self _ hlt] at hnow
            rcases List.mem_append.1 hnow with hold | hnew
            · exact .inl hold
            · rw [List.mem_singleton.1 hnew]
              exact .inr ⟨c, List.mem_cons_self, rfl, rfl, ht⟩
          · rw [block_eq_default (by rwa [size_modify])] at hnow
            exact absurd hnow List.not_mem_nil
        · rw [block_modify_of_ne _ hk] at hnow
          exact .inl hnow
      · exact .inl hnow
    · rw [(sameBlocks_settleCall b c).locate?] at hlocate
      exact .inr ⟨c', List.mem_cons_of_mem _ hc', hsource, hindex, hlocate⟩

/-! ## The finished graph -/

theorem ofProgram_eq (p : Program) : ofProgram p = (read p).calls.foldl (settleCall p p.slots)
      ((read p).exits.foldl (settleExit p p.slots) (read p)) := by
  have hsame : SameBlocks (read p) ((read p).exits.foldl (settleExit p p.slots) (read p)) :=
    sameBlocks_settleExits _ _
  rw [← hsame.calls]
  rfl

theorem sameBlocks_ofProgram (p : Program) : SameBlocks (read p) (ofProgram p) := by
  rw [ofProgram_eq]
  exact (sameBlocks_settleExits _ _).trans (sameBlocks_settleCalls _ _)

theorem exit?_ofProgram (p : Program) (k : BlockId) (kind : ExitKind) :
    ((ofProgram p).graph.block k).exit? kind =
      (((read p).exits.foldl (settleExit p p.slots) (read p)).graph.block k).exit? kind := by
  rw [ofProgram_eq, exit?_settleCalls]

theorem code_ofProgram (p : Program) (k : BlockId) :
    ((ofProgram p).graph.block k).code = ((read p).graph.block k).code :=
  congrArg (·.2.2.1) ((sameBlocks_ofProgram p).contents k)

theorem offset_ofProgram (p : Program) (k : BlockId) :
    ((ofProgram p).graph.block k).offset = ((read p).graph.block k).offset :=
  congrArg (·.2.1) ((sameBlocks_ofProgram p).contents k)

theorem mem_exitsOf : e ∈ b.exitsOf k ↔ e ∈ b.exits ∧ e.source = k := by
  simp [exitsOf]

/-- An exit was set while the slots were read, or it was pending then. -/
theorem exit?_cases (kind : ExitKind) {t : BlockId}
    (h : ((ofProgram p).graph.block k).exit? kind = some t) :
    ((read p).graph.block k).exit? kind = some t ∨ ∃ e ∈ (read p).exitsOf k, e.kind = kind ∧
      (read p).destination? p p.slots e = some t := by
  rw [exit?_ofProgram] at h
  exact (exit?_settleExits _ h).imp_right fun ⟨e, he, hsource, hkind, hdest⟩ =>
    ⟨e, mem_exitsOf.2 ⟨he, hsource⟩, hkind, hdest⟩

/-- An exit that is not set while the slots are read is set by what is pending for it. -/
theorem exit?_eq_of_pending (he : e ∈ (read p).exitsOf k)
    (hall : ∀ e' ∈ (read p).exitsOf k, e'.kind = e.kind → e' = e)
    (hold : ((read p).graph.block k).exit? e.kind = none) :
    ((ofProgram p).graph.block k).exit? e.kind = (read p).destination? p p.slots e := by
  -- What is set is the destination, and it is set if there is one.
  have hsound : ∀ t, ((ofProgram p).graph.block k).exit? e.kind = some t →
      (read p).destination? p p.slots e = some t := by
    intro t ht
    rcases exit?_cases e.kind ht with hbefore | ⟨e', he', hkind, hdest⟩
    · rw [hold] at hbefore
      cases hbefore
    · rwa [hall e' he' hkind] at hdest
  obtain ⟨hmem, rfl⟩ := mem_exitsOf.1 he
  cases hexit : ((ofProgram p).graph.block e.source).exit? e.kind with
  | some t => exact (hsound t hexit).symm
  | none =>
    by_contra hdest
    have hset := isSome_exit?_of_mem hmem ((pieces_read p).exit_source e hmem)
      (Option.isSome_iff_ne_none.2 fun hnone => hdest hnone.symm)
    rw [← exit?_ofProgram, hexit] at hset
    cases hset

theorem mem_exitsAt {index : Nat} (he : e ∈ exitsAt k index i) :
    (∃ t, i.jumpTarget? = some t ∧ e = ⟨k, .branch, .target t⟩) ∨
      i.opcode.isConditionalBranch = true ∧ e = ⟨k, .fallThrough, .slot (index + 1)⟩ := by
  unfold exitsAt at he
  rcases List.mem_append.1 he with he | he
  · split at he
    · exact absurd he List.not_mem_nil
    · obtain ⟨t, ht, rfl⟩ := List.mem_map.1 he
      exact .inl ⟨t, Option.mem_toList.1 ht, rfl⟩
  · split at he
    · next hcond => exact .inr ⟨hcond, List.mem_singleton.1 he⟩
    · exact absurd he List.not_mem_nil

variable {starts : List (Nat × BlockId)} {block : Block} {exits : List PendingExit} {stop : Nat}

theorem Ending.of_mem (h : Ending slots starts k block exits stop) (he : e ∈ exits) :
    (∃ i t, block.code.getLast? = some i ∧ i.opcode.isControlTransfer = true ∧ i.jumpTarget? =
      some t ∧ e = ⟨k, .branch, .target t⟩) ∨ e = ⟨k, .fallThrough, .slot stop⟩ := by
  cases h with
  | transfer last transfers stop_eq _ _ _ pending =>
    rw [pending] at he
    rcases mem_exitsAt he with ⟨t, ht, rfl⟩ | ⟨-, rfl⟩
    · exact .inl ⟨_, t, last, transfers, ht, rfl⟩
    · exact .inr (by rw [stop_eq])
  | rejoins _ _ _ _ pending =>
    rw [pending] at he
    exact .inr (List.mem_singleton.1 he)
  | falls _ _ _ _ _ pending | runsOut _ _ _ pending =>
    rw [pending] at he
    exact absurd he List.not_mem_nil

theorem Ending.eq_of_fallThrough (h : Ending slots starts k block exits stop) (he : e ∈ exits)
    (hkind : e.kind = .fallThrough) : e = ⟨k, .fallThrough, .slot stop⟩ := by
  rcases h.of_mem he with ⟨i, t, -, -, -, rfl⟩ | rfl
  · cases hkind
  · rfl

theorem isConditionalBranch_of_transfer {o : Opcode} (h : o.isControlTransfer = true)
    (hgoes : o.isUnconditionalTransfer = false) : o.isConditionalBranch = true := by
  unfold Opcode.isControlTransfer at h
  unfold Opcode.isUnconditionalTransfer at hgoes
  rw [Bool.or_assoc, hgoes, Bool.or_false] at h
  exact h

theorem fallThrough_eq_lookup {m : Nat} (hpiece : Piece p p.slots ((read p).graph.block k) m stop)
    (hending : Ending p.slots (read p).starts k ((read p).graph.block k) ((read p).exitsOf k) stop)
    {last : Instruction} (hlast : ((read p).graph.block k).code.getLast? = some last)
    (hgoes : last.opcode.isUnconditionalTransfer = false) :
    ((ofProgram p).graph.block k).fallThrough = (read p).starts.lookup stop := by
  have hstarts := starts_read p
  -- One pending exit leads to the slot behind the block.
  have hpending : ((read p).graph.block k).fallThrough = none →
      (⟨k, .fallThrough, .slot stop⟩ : PendingExit) ∈ (read p).exitsOf k →
      ((ofProgram p).graph.block k).exit? .fallThrough = (read p).starts.lookup stop := by
    intro hnone hmem
    exact exit?_eq_of_pending hmem (fun e he hkind => hending.eq_of_fallThrough he hkind) hnone
  -- Nothing is pending, so what was set while the slots were read stays.
  have hstays : (read p).exitsOf k = [] →
      ((ofProgram p).graph.block k).fallThrough = ((read p).graph.block k).fallThrough := by
    intro hnil
    have hsame := exit?_ofProgram p k .fallThrough
    rw [exit?_settleExits_of_forall_ne] at hsame
    · exact hsame
    · exact fun e he h => List.not_mem_nil (hnil ▸ mem_exitsOf.2 ⟨he, h.1⟩)
  cases hending with
  | transfer hlast' transfers stop_eq at_index item fall pending =>
    cases hlast.symm.trans hlast'
    have hcond := isConditionalBranch_of_transfer transfers hgoes
    subst stop_eq
    refine hpending fall ?_
    rw [pending]
    exact List.mem_append_right _ (by simp [hcond])
  | falls plain at_stop stops fall started pending =>
    rw [hstarts.lookup_iff.2 started, ← fall]
    exact hstays pending
  | rejoins plain at_stop stops fall pending =>
    refine hpending fall ?_
    rw [pending]
    exact List.mem_singleton_self _
  | runsOut plain nothing fall pending =>
    have hcode : ((read p).graph.block k).code ≠ [] := by
      intro hnil
      rw [hnil] at hlast
      cases hlast
    rw [hstays pending, fall]
    -- A block that started behind this one would be labelled or code.
    cases hlookup : (read p).starts.lookup stop with
    | none => rfl
    | some t =>
      have hmem := hstarts.lookup_iff.1 hlookup
      have hlt := hstarts.bound _ hmem
      have hslot := List.getElem?_eq_getElem hlt
      obtain ⟨hlabelled, hplain⟩ := nothing.resolve_left hcode _ hslot
      rcases hstarts.stops stop t _ hmem hslot with h | h | h
      · rw [hplain] at h
        cases h
      · rw [hlabelled] at h
        cases h
      · have hmark := isLabelled_of_finish (List.mem_of_getElem? hslot) h
        rw [hlabelled] at hmark
        cases hmark

end Build

end Lift6502
