import Lift6502.Proofs.Generate.Failures
import Lift6502.Proofs.Routine.Clobbers
import Lift6502.Proofs.Tree.Dispatch
import Mathlib.Tactic.Tauto

/-!
# What has a value between the blocks of a dispatch loop

The rounds that find the locations with a value on every path to a block come to rest at the largest
solution of the equations.
-/

namespace Lift6502

open LocationSet

variable {s t : LocationSet} {l : Location}

namespace LocationSet

theorem ext_mem (h : ∀ l, l ∈ s ↔ l ∈ t) : s = t := by
  apply PerLocation.ext
  intro l
  exact Bool.eq_iff_iff.2 (h l)

theorem mem_full (l : Location) : l ∈ full := by
  rcases l with r | f
  · cases r <;> rfl
  · cases f <;> rfl

theorem mem_foldl_inter {ways : List LocationSet} {start : LocationSet} :
    l ∈ ways.foldl inter start ↔ l ∈ start ∧ ∀ w ∈ ways, l ∈ w := by
  induction ways generalizing start with
  | nil => simp
  | cons w rest ih => rw [List.foldl_cons, ih, mem_inter, and_assoc, List.forall_mem_cons]

theorem length_toList_lt (h : ∀ l ∈ s, l ∈ t) (hne : s ≠ t) :
    s.toList.length < t.toList.length := by
  have hnot : t.subset s = false := by
    apply Bool.eq_false_iff.2
    intro hsubset
    exact hne (ext_mem fun l => ⟨h l, subset_iff.1 hsubset l⟩)
  have hunion : s.union t = t := ext_mem fun l => by
    rw [mem_union]
    exact ⟨fun hl => hl.elim (h l) id, .inr⟩
  have hlt := Generator.length_lt_length_union hnot
  rwa [hunion] at hlt

theorem lacks_lt (h : ∀ l ∈ s, l ∈ t) (hne : t ≠ s) :
    7 - t.toList.length < 7 - s.toList.length := by
  have hlt := length_toList_lt h hne.symm
  have hle : t.toList.length ≤ 7 := List.length_filter_le _ _
  omega

end LocationSet

namespace Generator

variable (c : Generator) {block : Block}

/-- An instruction gives a location a value if it writes it, and a call if the callee returns it. -/
def Gives (block : Block) (step : Nat × Instruction) (l : Location) : Prop :=
  if step.2.opcode = .jsr then
    ∃ callee, (block.callAt? step.1).bind c.routines.atEntry? = some callee ∧
      l ∈ ofRegisters callee.outputs
  else l ∈ step.2.effects.writes

/-- Only a call takes values away: from all flags, and from what the callee destroys and
does not return. -/
def Takes (block : Block) (step : Nat × Instruction) (l : Location) : Prop :=
  step.2.opcode = .jsr ∧ (l ∈ flags ∨
    ∃ callee, (block.callAt? step.1).bind c.routines.atEntry? = some callee ∧
      l ∈ ofRegisters (callee.clobbers.diff callee.outputs))

/-- The locations with a value behind a block, if `has` are those before it. -/
def valuedBehind (block : Block) (has : Location → Prop) : Location → Prop :=
  (block.code.mapIdx fun index i => (index, i)).foldl
    (fun has step l => c.Gives block step l ∨ has l ∧ ¬ c.Takes block step l) has

theorem mem_definedAfter {step : Nat × Instruction} :
    l ∈ c.definedAfter block step.1 step.2 s ↔ c.Gives block step l ∨ l ∈ s ∧
      ¬ c.Takes block step l := by
  unfold definedAfter Gives Takes
  by_cases hcall : step.2.opcode = .jsr
  · rw [if_pos hcall, if_pos hcall]
    cases (block.callAt? step.1).bind c.routines.atEntry? <;> simp [hcall]
    tauto
  · simp [hcall, or_comm]

theorem valuedBehind_mono (block : Block) {has has' : Location → Prop} (h : ∀ l, has l → has' l) :
    ∀ l, c.valuedBehind block has l → c.valuedBehind block has' l := by
  unfold valuedBehind
  generalize block.code.mapIdx (fun index i => (index, i)) = steps
  induction steps generalizing has has' with
  | nil => exact h
  | cons step rest ih => exact ih fun l hl => hl.imp_right fun hkept => ⟨h l hkept.1, hkept.2⟩

theorem mem_definedAfterBlock :
    l ∈ c.definedAfterBlock block s ↔ c.valuedBehind block (· ∈ s) l := by
  unfold definedAfterBlock valuedBehind
  generalize block.code.mapIdx (fun index i => (index, i)) = steps
  induction steps generalizing s with
  | nil => rfl
  | cons step rest ih =>
    rw [List.foldl_cons, List.foldl_cons, ih]
    simp only [mem_definedAfter]

/-! ## Ways through a routine -/

variable {c : Generator}

/-- A way from the entry through blocks of the routine leads to a block, and `has` are the locations
with a value there. -/
inductive Arrives (c : Generator) : BlockId → (Location → Prop) → Prop
  | entry (mem : c.routine.entry ∈ c.routine.blocks) :
      Arrives c c.routine.entry (· ∈ ofRegisters c.routine.inputs)
  | edge {b t : BlockId} {has : Location → Prop} (way : Arrives c b has)
      (exit : t ∈ c.graph.successors b) (mem : t ∈ c.routine.blocks) :
      Arrives c t (c.valuedBehind (c.graph.block b) has)

/-- What the equation for a block asks of a location: it is an input if the block is the entry, and
it has a value behind each predecessor in the routine. -/
def Met (c : Generator) (sets : BlockId → LocationSet) (b : BlockId) (l : Location) : Prop :=
  (b = c.routine.entry → l ∈ ofRegisters c.routine.inputs) ∧
    ∀ p ∈ c.graph.predecessors b, p ∈ c.routine.blocks →
      c.valuedBehind (c.graph.block p) (· ∈ sets p) l

def Solves (c : Generator) (sets : BlockId → LocationSet) : Prop :=
  ∀ b ∈ c.routine.blocks, ∀ l, l ∈ sets b ↔ c.Met sets b l

variable {sets sets' : BlockId → LocationSet} {b : BlockId} {l : Location}

theorem Met.mono (h : c.Met sets b l) (hsets : ∀ b ∈ c.routine.blocks, ∀ l ∈ sets b, l ∈ sets' b) :
    c.Met sets' b l :=
  ⟨h.1, fun p hp hin => c.valuedBehind_mono _ (hsets p hin) l (h.2 p hp hin)⟩

variable (c)

/-- What every way into a block defines, from what is defined at the start of each block of
the routine. -/
def definedAt (sets : BlockId → LocationSet) (b : BlockId) : LocationSet :=
  let start := if b = c.routine.entry then ofRegisters c.routine.inputs else full
  let ways := (c.graph.predecessors b).toList.filterMap fun p =>
    if p ∈ c.routine.blocks then some (c.definedAfterBlock (c.graph.block p) (sets p)) else none
  ways.foldl inter start

theorem mem_definedAt : l ∈ c.definedAt sets b ↔ c.Met sets b l := by
  refine mem_foldl_inter.trans (and_congr ?_ ?_)
  · by_cases hentry : b = c.routine.entry <;> simp [hentry, mem_full]
  · simp only [List.mem_filterMap, Option.ite_none_right_eq_some, Option.some.injEq,
      ← mem_definedAfterBlock]
    constructor
    · exact fun h p hp hin => h _ ⟨p, hp, hin, rfl⟩
    · rintro h w ⟨p, hp, hin, rfl⟩
      exact h p hp hin

theorem defineRound_map (sets : BlockId → LocationSet) :
    c.defineRound (c.routine.blocks.toList.map fun b => (b, sets b)) =
      c.routine.blocks.toList.map fun b => (b, c.definedAt sets b) := by
  have hlookup : ∀ p, ((c.routine.blocks.toList.map fun b => (b, sets b)).lookup p).map
      (c.definedAfterBlock (c.graph.block p)) =
      if p ∈ c.routine.blocks then some (c.definedAfterBlock (c.graph.block p) (sets p)) else none := by
    intro p
    rw [Dominators.lookup_map_self, apply_ite (Option.map _)]
    rfl
  simp only [defineRound, List.map_map, hlookup]
  rfl

/-- The equations that sweeps over the blocks of the routine solve in place. -/
def defineEquations : Equations BlockId LocationSet :=
  c.routine.blocks.toList.map fun b => (b, (c.definedAt · b))

theorem getD_lookup_map (sets : BlockId → LocationSet) (b : BlockId) :
    ((c.routine.blocks.toList.map fun b => (b, sets b)).lookup b).getD full =
      if b ∈ c.routine.blocks then sets b else full := by
  rw [Dominators.lookup_map_self, apply_ite (Option.getD · _)]
  rfl

theorem rounds_certainlySet : c.defineEquations.Rounds (fun s t => ∀ l ∈ t, l ∈ s)
    (7 - ·.toList.length) 7 c.defineRound (fun m b => (m.lookup b).getD full)
    (fun m => ∃ sets : BlockId → LocationSet, m = c.routine.blocks.toList.map fun b => (b, sets b))
    (c.routine.blocks.toList.map fun b => (b, full)) := by
  have hmem : ∀ {e}, e ∈ c.defineEquations ↔ ∃ b ∈ c.routine.blocks, (b, (c.definedAt · b)) = e :=
    List.mem_map
  refine ⟨⟨fun _ _ hl => hl, fun hst htu l hl => hst l (htu l hl), lacks_lt, ?_, ?_⟩,
    fun _ => Nat.sub_le .., ⟨_, rfl⟩, fun b s l _ => ?_, ?_, ?_, ?_, ?_⟩
  · intro e e' he he' hkeys
    obtain ⟨b, -, rfl⟩ := hmem.1 he
    obtain ⟨b', -, rfl⟩ := hmem.1 he'
    obtain rfl : b = b' := hkeys
    rfl
  · intro e values more he hmore l hl
    obtain ⟨b, -, rfl⟩ := hmem.1 he
    exact c.mem_definedAt.2 ((c.mem_definedAt.1 hl).mono fun b _ => hmore b)
  · rw [getD_lookup_map, ite_self]
    exact mem_full l
  · rintro _ ⟨sets, rfl⟩
    exact ⟨_, c.defineRound_map sets⟩
  · rintro _ ⟨sets, rfl⟩ e he
    obtain ⟨b, hb, rfl⟩ := hmem.1 he
    simp only [defineRound_map, getD_lookup_map, if_pos hb]
    refine ext_mem fun l => ?_
    rw [mem_definedAt, mem_definedAt]
    exact ⟨fun hl => hl.mono fun b hb l hl => by rwa [if_pos hb],
      fun hl => hl.mono fun b hb l hl => by rwa [if_pos hb] at hl⟩
  · rintro _ ⟨sets, rfl⟩ b hb s l _
    rw [defineRound_map, getD_lookup_map, if_neg fun hin => hb _ (hmem.2 ⟨b, hin, rfl⟩) rfl]
    exact mem_full l
  · rintro _ ⟨sets, rfl⟩ hall
    rw [defineRound_map]
    refine List.map_congr_left fun b hb => ?_
    have heq := hall _ (hmem.2 ⟨b, hb, rfl⟩)
    simp only [defineRound_map, getD_lookup_map, if_pos (show b ∈ c.routine.blocks from hb)] at heq
    rw [heq]

theorem comesToRest_certainlySet : ComesToRest c.defineRound
    (c.routine.blocks.toList.map fun b => (b, full)) c.certainlySet :=
  c.rounds_certainlySet.comesToRest (by simp [defineEquations])

theorem Arrives.has {has : Location → Prop} (h : c.Arrives b has) (hg : c.graph.verify = .ok ())
    (hsets : c.Solves sets) : b ∈ c.routine.blocks ∧ ∀ l ∈ sets b, has l := by
  induction h with
  | entry mem => exact ⟨mem, fun l hl => ((hsets _ mem l).1 hl).1 rfl⟩
  | edge _ exit mem ih =>
    refine ⟨mem, fun l hl => c.valuedBehind_mono _ ih.2 l ?_⟩
    exact ((hsets _ mem l).1 hl).2 _ ((Graph.mem_predecessors_iff hg).2 exit) ih.1

/-- The rounds come to rest, at one set for each block of the routine, and sweeps that replace the
sets in place come to rest at the same ones. Along every way from the entry through blocks of the
routine, the locations in the set of a block have a value when it is reached. The sets solve the
equations, and every other solution has smaller ones. -/
theorem certainlySet_sound (c : Generator) (hg : c.graph.verify = .ok ()) :
    ComesToRest c.defineRound (c.routine.blocks.toList.map fun b => (b, LocationSet.full))
      c.certainlySet ∧
    ∃ sets : BlockId → LocationSet,
      c.certainlySet = c.routine.blocks.toList.map (fun b => (b, sets b)) ∧
      c.defineEquations.Settles (fun _ => LocationSet.full)
        (fun b => if b ∈ c.routine.blocks then sets b else LocationSet.full) ∧
      (∀ b has, c.Arrives b has → ∀ l ∈ sets b, has l) ∧
      c.Solves sets ∧
      ∀ other, c.Solves other → ∀ b ∈ c.routine.blocks, ∀ l ∈ other b, l ∈ sets b := by
  have hrest := c.comesToRest_certainlySet
  obtain ⟨sets, hsets⟩ : ∃ sets : BlockId → LocationSet,
      c.certainlySet = c.routine.blocks.toList.map fun b => (b, sets b) := by
    obtain ⟨n, hn⟩ := hrest.reached
    rw [← hn]
    exact c.rounds_certainlySet.iterate_mem n
  have hsettles := c.rounds_certainlySet.settles hrest
  simp only [hsets, getD_lookup_map, ite_self] at hsettles
  have hsolves : c.Solves sets := by
    intro b hb l
    have hfixed := hrest.fixed
    rw [hsets, defineRound_map] at hfixed
    have hsame : c.definedAt sets b = sets b := (Prod.mk.inj (List.map_inj_left.1 hfixed b hb)).2
    rw [← mem_definedAt, hsame]
  refine ⟨hrest, sets, hsets, hsettles, fun b has h => (h.has c hg hsolves).2, hsolves, ?_⟩
  intro other hother b hb l hl
  have hleast := c.rounds_certainlySet.least hrest other (fun e he l hl => ?_) b l hl
  · simpa only [hsets, getD_lookup_map, if_pos hb] using hleast
  · obtain ⟨b, hb, rfl⟩ := List.mem_map.1 he
    exact c.mem_definedAt.2 ((hother b hb l).1 hl)

end Generator

def twoWayGenerator : Generator where
  program := twoWayEntry
  graph := twoWayEntry.graph
  routines := twoWayEntry.routines
  routine := twoWayEntry.first
  maxInline := 0

/-- Whichever half of the loop is entered, the accumulator and the flags for it have a
value there. -/
theorem certainlySet_twoWayEntry : twoWayGenerator.graph.verify = .ok () ∧
    (∃ has, twoWayGenerator.Arrives 1 has) ∧
    ∀ has, twoWayGenerator.Arrives 1 has → has .a ∧ has .z ∧ has .n := by
  have hg : twoWayGenerator.graph.verify = .ok () := by decide +kernel
  have hset : twoWayGenerator.certainlySet.lookup 1 =
      some ⟨true, false, false, false, true, true, false⟩ := by
    decide +kernel
  obtain ⟨-, sets, hsets, -, hsound, -⟩ := twoWayGenerator.certainlySet_sound hg
  rw [hsets, Dominators.lookup_map_self, if_pos (by decide +kernel)] at hset
  refine ⟨hg, ⟨_, .edge (.entry (by decide +kernel)) (by decide +kernel) (by decide +kernel)⟩,
    fun has h => ?_⟩
  have hhas := hsound 1 has h
  rw [Option.some.inj hset] at hhas
  exact ⟨hhas .a rfl, hhas .z rfl, hhas .n rfl⟩

end Lift6502
