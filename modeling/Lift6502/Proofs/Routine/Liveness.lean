import Lift6502.Proofs.Routine.Clobbers

/-!
# Liveness of registers

A register is live at a block if some way on from there reads it before anything writes it.
-/

namespace Lift6502

open LiveMap RegisterSet

variable {interfaces : Nat → Interface} {outputs : RegisterSet} {r : Register}
  {steps : List RegisterStep}

namespace RegisterStep

def reads (interfaces : Nat → Interface) : RegisterStep → RegisterSet
  | plain reads _ => reads
  | call callee _ => (interfaces callee).inputs

def writes (interfaces : Nat → Interface) : RegisterStep → RegisterSet
  | plain _ writes => writes
  | call callee _ => (interfaces callee).outputs

variable {step : RegisterStep} {after : RegisterSet}

theorem mem_before : r ∈ step.before interfaces after ↔
      r ∈ step.reads interfaces ∨ r ∉ step.writes interfaces ∧ r ∈ after := by
  cases step <;>
    rw [before, mem_union, mem_diff, reads, writes, or_comm, and_comm]

def ReadFirst (interfaces : Nat → Interface) (r : Register) (steps : List RegisterStep) : Prop :=
  ∃ (k : Nat) (step : RegisterStep), steps[k]? = some step ∧ r ∈ step.reads interfaces ∧
    ∀ j < k, ∀ earlier, steps[j]? = some earlier → r ∉ earlier.writes interfaces

theorem readFirst_cons {rest : List RegisterStep} : ReadFirst interfaces r (step :: rest) ↔
      r ∈ step.reads interfaces ∨ r ∉ step.writes interfaces ∧ ReadFirst interfaces r rest := by
  constructor
  · rintro ⟨_ | k, read, hread, hr, hfree⟩
    · rw [List.getElem?_cons_zero, Option.some.injEq] at hread
      exact .inl (hread ▸ hr)
    · refine .inr ⟨hfree 0 (by omega) step rfl, k, read, hread, hr, fun j hj earlier hearlier => ?_⟩
      exact hfree (j + 1) (by omega) earlier hearlier
  · rintro (hr | ⟨hwrites, k, read, hread, hr, hfree⟩)
    · exact ⟨0, step, rfl, hr, fun j hj => absurd hj (Nat.not_lt_zero j)⟩
    · refine ⟨k + 1, read, hread, hr, ?_⟩
      rintro (_ | j) hj earlier hearlier
      · rw [List.getElem?_cons_zero, Option.some.injEq] at hearlier
        exact hearlier ▸ hwrites
      · exact hfree j (by omega) earlier hearlier

theorem mem_foldr_before : r ∈ steps.foldr (before interfaces) after ↔
      ReadFirst interfaces r steps ∨ (∀ step ∈ steps, r ∉ step.writes interfaces) ∧ r ∈ after := by
  induction steps with
  | nil => simp [ReadFirst]
  | cons step rest ih =>
    rw [List.foldr_cons, mem_before, ih, readFirst_cons, List.forall_mem_cons, and_assoc, or_assoc,
      ← and_or_left]

end RegisterStep

namespace RegisterBlock

variable {b : RegisterBlock} {live : BlockId → RegisterSet}

def Spares (b : RegisterBlock) (interfaces : Nat → Interface) (r : Register) : Prop :=
  ∀ step ∈ b.steps, r ∉ step.writes interfaces

/-- The register is read where the block leaves its routine: handed back to a caller, or taken by
the routine that goes on. -/
def ReadsAtEnd (b : RegisterBlock) (interfaces : Nat → Interface) (outputs : RegisterSet)
    (r : Register) : Prop :=
  (b.returns = true ∧ r ∈ outputs) ∨
    ∃ callee, .routine callee ∈ b.onward ∧ (r ∈ (interfaces callee).inputs ∨ r ∈ outputs)

/-- The block reads the register, and writes it at most after that. -/
def Reads (b : RegisterBlock) (interfaces : Nat → Interface) (outputs : RegisterSet)
    (r : Register) : Prop :=
  RegisterStep.ReadFirst interfaces r b.steps ∨
    b.Spares interfaces r ∧ b.ReadsAtEnd interfaces outputs r

theorem mem_liveOut : r ∈ b.liveOut interfaces outputs live ↔
    b.ReadsAtEnd interfaces outputs r ∨ ∃ next, .block next ∈ b.onward ∧ r ∈ live next := by
  unfold liveOut
  rw [mem_foldl_iff (p := fun onward =>
    (∃ callee, onward = .routine callee ∧ (r ∈ (interfaces callee).inputs ∨ r ∈ outputs)) ∨
      ∃ next, onward = .block next ∧ r ∈ live next)]
  · have hreturns : r ∈ (if b.returns then outputs else ∅) ↔ b.returns = true ∧ r ∈ outputs := by
      cases b.returns <;> simp
    rw [hreturns, ReadsAtEnd, or_assoc]
    refine or_congr_right ⟨?_, ?_⟩
    · rintro ⟨onward, hmem, ⟨callee, rfl, hr⟩ | ⟨next, rfl, hr⟩⟩
      · exact .inl ⟨callee, hmem, hr⟩
      · exact .inr ⟨next, hmem, hr⟩
    · rintro (⟨callee, hmem, hr⟩ | ⟨next, hmem, hr⟩)
      · exact ⟨_, hmem, .inl ⟨callee, rfl, hr⟩⟩
      · exact ⟨_, hmem, .inr ⟨next, rfl, hr⟩⟩
  · rintro s (next | callee) <;> simp [or_assoc]

theorem mem_liveIn : r ∈ b.liveIn interfaces outputs live ↔ b.Reads interfaces outputs r ∨
      b.Spares interfaces r ∧ ∃ next, .block next ∈ b.onward ∧ r ∈ live next := by
  rw [liveIn, RegisterStep.mem_foldr_before, mem_liveOut, and_or_left, ← or_assoc]
  rfl

end RegisterBlock

/-! ## All rounds -/

def LiveMap.ofBlocks (blocks : List RegisterBlock) (value : RegisterBlock → RegisterSet) :
    LiveMap :=
  blocks.map fun b => (b.id, value b)

def liveRound (blocks : List RegisterBlock) (interfaces : Nat → Interface) (outputs : RegisterSet)
    (m : LiveMap) : LiveMap :=
  ofBlocks blocks fun b => b.liveIn interfaces outputs m.get

/-- From a block on, some way through the blocks reads a register before anything writes it. -/
inductive LiveFrom (blocks : List RegisterBlock) (interfaces : Nat → Interface)
    (outputs : RegisterSet) (r : Register) : RegisterBlock → Prop where
  | reads {b : RegisterBlock} (h : b.Reads interfaces outputs r) :
    LiveFrom blocks interfaces outputs r b
  | onward {b c : RegisterBlock} (hspares : b.Spares interfaces r) (hc : c ∈ blocks)
      (hedge : .block c.id ∈ b.onward) (hrest : LiveFrom blocks interfaces outputs r c) :
      LiveFrom blocks interfaces outputs r b

section

variable {blocks : List RegisterBlock} (hnodup : (blocks.map RegisterBlock.id).Nodup) {t : BlockId}
include hnodup

theorem LiveMap.get_ofBlocks (value : RegisterBlock → RegisterSet) {b : RegisterBlock}
    (hb : b ∈ blocks) : (ofBlocks blocks value).get b.id = value b := by
  have hkeys : ((ofBlocks blocks value).map (·.1)).Nodup := by rwa [ofBlocks, List.map_map]
  rw [get, (lookup_eq_some_iff hkeys).2 (List.mem_map.2 ⟨b, hb, rfl⟩), Option.getD_some]

theorem LiveMap.mem_get_ofBlocks {value : RegisterBlock → RegisterSet} :
    r ∈ (ofBlocks blocks value).get t ↔ ∃ b ∈ blocks, b.id = t ∧ r ∈ value b := by
  constructor
  · intro hr
    rw [get] at hr
    rcases hlookup : (ofBlocks blocks value).lookup t with _ | found
    · rw [hlookup] at hr
      exact absurd hr (not_mem_empty r)
    · obtain ⟨b, hb, heq⟩ := List.mem_map.1 (mem_of_lookup hlookup)
      obtain ⟨hid, hvalue⟩ := Prod.mk.inj heq
      rw [hlookup, Option.getD_some, ← hvalue] at hr
      exact ⟨b, hb, hid, hr⟩
  · rintro ⟨b, hb, rfl, hr⟩
    rwa [get_ofBlocks hnodup value hb]

/-- The equations that sweeps over the blocks of a routine solve in place, the last block first. -/
def liveEquations (blocks : List RegisterBlock) (interfaces : Nat → Interface)
    (outputs : RegisterSet) : Equations BlockId RegisterSet :=
  blocks.reverse.map fun b => (b.id, b.liveIn interfaces outputs)

theorem get_ofBlocks_empty (t : BlockId) : (ofBlocks blocks fun _ => ∅).get t = ∅ := by
  by_contra hne
  refine absurd (length_toList_lt (fun r hr => ?_) hne) (Nat.not_lt_zero _)
  obtain ⟨b, -, -, hr⟩ := (mem_get_ofBlocks hnodup).1 hr
  exact hr

variable (interfaces outputs)

theorem rounds_liveness : (liveEquations blocks interfaces outputs).Rounds
    (fun s t => ∀ r ∈ s, r ∈ t) (·.toList.length) 3 (liveRound blocks interfaces outputs)
    get (fun m => ∃ value, m = .ofBlocks blocks value) (.ofBlocks blocks fun _ => ∅) := by
  have hmem : ∀ {e}, e ∈ liveEquations blocks interfaces outputs ↔
      ∃ b ∈ blocks, (b.id, b.liveIn interfaces outputs) = e := by simp [liveEquations]
  refine ⟨ordered (fun {e e'} he he' hkeys => ?_) fun {e _ _} he hmore r hr => ?_,
    length_toList_le, ⟨_, rfl⟩, fun t s => ?_, fun _ _ => ⟨_, rfl⟩, fun m _ e he => ?_,
    fun m _ t ht s r hr => ?_, ?_⟩
  · obtain ⟨b, hb, rfl⟩ := hmem.1 he
    obtain ⟨b', hb', rfl⟩ := hmem.1 he'
    rw [List.inj_on_of_nodup_map hnodup hb hb' hkeys]
  · obtain ⟨b, -, rfl⟩ := hmem.1 he
    refine RegisterBlock.mem_liveIn.2 ((RegisterBlock.mem_liveIn.1 hr).imp_right ?_)
    exact fun ⟨hspares, next, hnext, hlive⟩ => ⟨hspares, next, hnext, hmore next r hlive⟩
  · rw [get_ofBlocks_empty hnodup]
    exact empty_subset s
  · obtain ⟨b, hb, rfl⟩ := hmem.1 he
    exact get_ofBlocks hnodup _ hb
  · obtain ⟨b, hb, hid, -⟩ := (mem_get_ofBlocks hnodup).1 hr
    exact absurd hid (ht _ (hmem.2 ⟨b, hb, rfl⟩))
  · rintro _ ⟨value, rfl⟩ hall
    refine List.map_congr_left fun b hb => ?_
    have heq := hall _ (hmem.2 ⟨b, hb, rfl⟩)
    rw [liveRound, get_ofBlocks hnodup _ hb, get_ofBlocks hnodup _ hb] at heq
    rw [heq]

theorem comesToRest_liveness : ComesToRest (liveRound blocks interfaces outputs)
    (.ofBlocks blocks fun _ => ∅) (liveness blocks interfaces outputs) :=
  (rounds_liveness interfaces outputs hnodup).comesToRest (by simp [liveEquations])

theorem settles_liveness : (liveEquations blocks interfaces outputs).Settles (fun _ => ∅)
    (liveness blocks interfaces outputs).get := by
  rw [← funext (get_ofBlocks_empty hnodup)]
  exact (rounds_liveness interfaces outputs hnodup).settles
    (comesToRest_liveness interfaces outputs hnodup)

variable {interfaces outputs}

theorem mem_liveness : r ∈ (liveness blocks interfaces outputs).get t ↔
    ∃ b ∈ blocks, b.id = t ∧ LiveFrom blocks interfaces outputs r b := by
  constructor
  · -- No round goes beyond what the ways read.
    refine iterate_invariant (p := fun m : LiveMap => ∀ r t, r ∈ m.get t →
      ∃ b ∈ blocks, b.id = t ∧ LiveFrom blocks interfaces outputs r b) (fun m hm r t hr => ?_) _
      (fun r t hr => ?_) r t
    · obtain ⟨b, hb, hid, hr⟩ := (mem_get_ofBlocks hnodup).1 hr
      refine ⟨b, hb, hid, ?_⟩
      obtain hreads | ⟨hspares, next, hnext, hlive⟩ := RegisterBlock.mem_liveIn.1 hr
      · exact .reads hreads
      · obtain ⟨c, hc, rfl, hrest⟩ := hm r next hlive
        exact .onward hspares hc hnext hrest
    · have hr : r ∈ (ofBlocks blocks fun _ => ∅).get t := hr
      obtain ⟨b, -, -, hr⟩ := (mem_get_ofBlocks hnodup).1 hr
      exact absurd hr (not_mem_empty r)
  · rintro ⟨b, hb, rfl, hlive⟩
    have hfixed := (comesToRest_liveness interfaces outputs hnodup).fixed
    induction hlive with
    | reads hreads =>
      rw [← hfixed]
      exact (mem_get_ofBlocks hnodup).2
        ⟨_, hb, rfl, RegisterBlock.mem_liveIn.2 (.inl hreads)⟩
    | onward hspares hc hedge _ ih =>
      rw [← hfixed]
      exact (mem_get_ofBlocks hnodup).2
        ⟨_, hb, rfl, RegisterBlock.mem_liveIn.2 (.inr ⟨hspares, _, hedge, ih hc⟩)⟩

end

/-! ## More inputs -/

structure Interface.TakeMore (interfaces interfaces' : Nat → Interface) : Prop where
  outputs : ∀ n, (interfaces n).outputs = (interfaces' n).outputs
  inputs : ∀ n, ∀ r ∈ (interfaces n).inputs, r ∈ (interfaces' n).inputs

variable {interfaces' : Nat → Interface} (hmore : Interface.TakeMore interfaces interfaces')
  {b : RegisterBlock}
include hmore

theorem RegisterStep.writes_eq (step : RegisterStep) :
    step.writes interfaces = step.writes interfaces' := by
  cases step with
  | plain reads writes => rfl
  | call callee writes => exact hmore.outputs callee

theorem RegisterStep.ReadFirst.mono (h : ReadFirst interfaces r steps) :
    ReadFirst interfaces' r steps := by
  obtain ⟨k, step, hstep, hr, hfree⟩ := h
  refine ⟨k, step, hstep, ?_, fun j hj earlier hearlier => ?_⟩
  · cases step with
    | plain reads writes => exact hr
    | call callee writes => exact hmore.inputs callee r hr
  · rw [← writes_eq hmore]
    exact hfree j hj earlier hearlier

theorem RegisterBlock.Spares.mono (h : b.Spares interfaces r) : b.Spares interfaces' r :=
  fun step hstep => RegisterStep.writes_eq hmore step ▸ h step hstep

theorem RegisterBlock.Reads.mono (h : b.Reads interfaces outputs r) :
    b.Reads interfaces' outputs r := by
  obtain hfirst | ⟨hspares, hreturns | ⟨callee, hcallee, hr⟩⟩ := h
  · exact .inl (hfirst.mono hmore)
  · exact .inr ⟨hspares.mono hmore, .inl hreturns⟩
  · exact .inr ⟨hspares.mono hmore, .inr ⟨callee, hcallee, hr.imp_left (hmore.inputs callee r)⟩⟩

theorem LiveFrom.mono {blocks : List RegisterBlock} (h : LiveFrom blocks interfaces outputs r b) :
    LiveFrom blocks interfaces' outputs r b := by
  induction h with
  | reads hreads => exact .reads (hreads.mono hmore)
  | onward hspares hc hedge _ ih => exact .onward (hspares.mono hmore) hc hedge ih

end Lift6502
