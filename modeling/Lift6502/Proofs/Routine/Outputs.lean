import Lift6502.Proofs.Routine.Inputs

/-!
# What routines hand back

A routine hands back every register that it may change and that is live behind one of its calls, and
whoever takes over from a routine hands back for it.
-/

namespace Lift6502

open RegisterBlock (ofBlock mem_ofRoutine)
open RegisterSet

variable {writes : RegisterSet} {k callee : Nat}

theorem RegisterBlock.mem_liveAfterCalls (interfaces : Nat → Interface) (after : RegisterSet)
    {steps : List RegisterStep} (h : steps[k]? = some (.call callee writes)) :
    (callee, (steps.drop (k + 1)).foldr (RegisterStep.before interfaces) after) ∈
      liveAfterCalls interfaces after steps := by
  induction steps generalizing k with
  | nil => cases h
  | cons step rest ih =>
    cases k with
    | zero =>
      obtain rfl := Option.some.inj h
      exact List.mem_cons_self
    | succ k =>
      have hlater := ih h
      cases step with
      | plain => exact hlater
      | call => exact List.mem_cons_of_mem _ hlater

namespace Interface

variable {flows : List RoutineFlow} {interfaces : List Interface} {n : Nat} {f : RoutineFlow}
  {b : RegisterBlock} {r : Register}

theorem mem_wanted_of_call (h : flows[n]? = some f) (hb : b ∈ f.blocks)
    (hcall : b.steps[k]? = some (.call callee writes)) :
    (callee, (b.steps.drop (k + 1)).foldr (RegisterStep.before (number interfaces))
      (b.liveOut (number interfaces) (number interfaces n).outputs
        (liveness f.blocks (number interfaces) (number interfaces n).outputs).get)) ∈
      wanted flows interfaces := by
  obtain ⟨hn, rfl⟩ := List.getElem?_eq_some_iff.1 h
  refine List.mem_flatten.2 ⟨_, List.mem_mapIdx.2 ⟨n, hn, rfl⟩, List.mem_flatMap.2 ⟨b, hb, ?_⟩⟩
  exact List.mem_append_left _ (RegisterBlock.mem_liveAfterCalls _ _ hcall)

theorem mem_wanted_of_onward (h : flows[n]? = some f) (hb : b ∈ f.blocks) {callee : Nat}
    (honward : .routine callee ∈ b.onward) :
    (callee, (number interfaces n).outputs) ∈ wanted flows interfaces := by
  obtain ⟨hn, rfl⟩ := List.getElem?_eq_some_iff.1 h
  refine List.mem_flatten.2 ⟨_, List.mem_mapIdx.2 ⟨n, hn, rfl⟩, List.mem_flatMap.2 ⟨b, hb, ?_⟩⟩
  exact List.mem_append_right _ (List.mem_filterMap.2 ⟨_, honward, rfl⟩)

theorem mem_outputs_growOutputs (h : flows[n]? = some f) :
    r ∈ (number (growOutputs flows interfaces) n).outputs ↔
      r ∈ (number interfaces n).outputs ∨ r ∈ (number interfaces n).clobbers ∧
        (f.isRoot = true ∨ ∃ live, (n, live) ∈ wanted flows interfaces ∧ r ∈ live) := by
  unfold growOutputs
  rw [number_mapIdx h, mem_union]
  refine or_congr_right ?_
  cases f.isRoot with
  | true => simp
  | false =>
    simp only [Bool.false_eq_true, if_false, false_or, mem_inter]
    rw [mem_foldl_iff (p := fun asked : Nat × RegisterSet => asked.1 = n ∧ r ∈ asked.2)]
    · refine and_congr_right fun _ => ⟨?_, ?_⟩
      · rintro (hr | ⟨⟨_, live⟩, hmem, rfl, hr⟩)
        · exact absurd hr (not_mem_empty r)
        · exact ⟨live, hmem, hr⟩
      · rintro ⟨live, hmem, hr⟩
        exact .inr ⟨(n, live), hmem, rfl, hr⟩
    · rintro s ⟨callee, live⟩
      by_cases heq : callee = n <;> simp [heq]

theorem outputs_growOutputs_solve (flows : List RoutineFlow) (n : Nat) :
    (number (growOutputs flows (solve flows)) n).outputs = (number (solve flows) n).outputs := by
  have hagree : Agree Interface.outputs flows (growOutputs flows (solve flows))
      (solveInputs flows (growOutputs flows (solve flows))) :=
    Agree.solveInputs (fun _ _ => rfl) ⟨length_growOutputs flows _, fun _ => rfl⟩
  rw [← hagree.same, (comesToRest_solve flows).fixed]

theorem mem_outputs_solve (h : flows[n]? = some f) (hr : r ∈ (number (solve flows) n).clobbers)
    (hwanted : f.isRoot = true ∨ ∃ live, (n, live) ∈ wanted flows (solve flows) ∧ r ∈ live) :
    r ∈ (number (solve flows) n).outputs := by
  rw [← outputs_growOutputs_solve]
  exact (mem_outputs_growOutputs h).2 (.inr ⟨hr, hwanted⟩)

def Bounded (flows : List RoutineFlow) (interfaces : List Interface) : Prop :=
  interfaces.length = flows.length ∧
    ∀ n, ∀ r ∈ (number interfaces n).outputs, r ∈ (number interfaces n).clobbers

theorem Bounded.solveInputs (h : Bounded flows interfaces) :
    Bounded flows (solveInputs flows interfaces) := by
  have hagree : Agree (fun i : Interface => (i.outputs, i.clobbers)) flows interfaces
      (Interface.solveInputs flows interfaces) :=
      Agree.solveInputs (fun _ _ => rfl) ⟨h.1, fun _ => rfl⟩
  refine ⟨hagree.length, fun n => ?_⟩
  obtain ⟨houtputs, hclobbers⟩ := Prod.mk.inj (hagree.same n)
  rw [houtputs, hclobbers]
  exact h.2 n

theorem Bounded.growOutputs (h : Bounded flows interfaces) :
    Bounded flows (growOutputs flows interfaces) := by
  have hagree : Agree Interface.clobbers flows interfaces
      (Interface.growOutputs flows interfaces) :=
    Agree.mapIdx ⟨h.1, fun _ => rfl⟩ fun _ _ => rfl
  refine ⟨hagree.length, fun n r hr => ?_⟩
  rw [hagree.same n]
  rcases hn : flows[n]? with _ | f
  · rw [List.getElem?_eq_none_iff] at hn
    rw [number_of_length_le (by rw [hagree.length]; exact hn)] at hr
    exact absurd hr (not_mem_empty r)
  · rcases (mem_outputs_growOutputs hn).1 hr with hr | ⟨hr, -⟩
    · exact h.2 n r hr
    · exact hr

theorem outputs_clobbered (flows : List RoutineFlow) (n : Nat) :
    (number (clobbered flows) n).outputs = ∅ := by
  have hagree : Agree Interface.outputs flows (flows.map fun _ => {}) (clobbered flows) := by
    refine iterate_invariant (p := Agree Interface.outputs flows (flows.map fun _ => {}))
      (fun l h => ?_) _ ⟨List.length_map _, fun _ => rfl⟩
    unfold clobberRound
    exact h.mapIdx fun _ _ => rfl
  rw [hagree.same, number_noClobbers]

theorem bounded_solve (flows : List RoutineFlow) : Bounded flows (solve flows) := by
  have hstart : Bounded flows (clobbered flows) := by
    refine ⟨length_clobbered flows, fun n r hr => ?_⟩
    rw [outputs_clobbered] at hr
    exact absurd hr (not_mem_empty r)
  exact iterate_invariant (p := Bounded flows) (fun _ h => h.growOutputs.solveInputs) _
    hstart.solveInputs

theorem clobbers_solve_least (family : Nat → RegisterSet)
    (hfamily : ∀ n f, flows[n]? = some f → ∀ b ∈ f.blocks, ∀ r ∈ b.writesThrough family,
      r ∈ family n) (hr : r ∈ (number (solve flows) n).clobbers) : r ∈ family n := by
  rw [(agree_clobbers_solve flows).same] at hr
  refine (rounds_clobbers flows).least (comesToRest_clobbered flows) family
    (fun e he r hr => ?_) n r hr
  obtain ⟨n, f, hf, rfl⟩ := exists_of_mem_equations he
  rcases mem_foldl_writesThrough.1 hr with hr | ⟨b, hb, hr⟩
  · exact hr
  · exact hfamily n f hf b hb r hr

end Interface

/-! ## The routines of a graph -/

namespace Routines

variable {g : Graph} {rs : Routines} {inputs : Routine → RegisterSet} {r : Routine} {b : BlockId}
  {k : Nat} {q : Register} {roots : List BlockId} {callee : Routine}

/-- A register is live behind an instruction: what follows in the block uses it first, or nothing
there defines it and it is used at the end of the block or live at a block behind it. -/
def LiveAfter (g : Graph) (rs : Routines) (inputs : Routine → RegisterSet) (r : Routine)
    (b : BlockId) (k : Nat) (q : Register) : Prop :=
  (∃ j > k, Uses g rs inputs b j q ∧ ∀ m, k < m → m < j → ¬ Defines g rs b m q) ∨
    (∀ m > k, ¬ Defines g rs b m q) ∧
      (UsesAtEnd g rs inputs r b q ∨ ∃ t ∈ g.successorsIn r.blocks b, LiveAt g rs inputs r t q)

theorem LiveAfter.mem_foldr_before (hsep : Separate rs.all) (hr : r ∈ rs.all) (hb : Reaches g r b)
    (hdistinct : ((RegisterBlock.ofRoutine g rs r).map RegisterBlock.id).Nodup)
    (hlive : LiveAfter g rs inputs r b k q) :
    q ∈ ((ofBlock g rs b).steps.drop (k + 1)).foldr
      (RegisterStep.before (rs.withInputs inputs))
      ((ofBlock g rs b).liveOut (rs.withInputs inputs) r.outputs
        (liveness (RegisterBlock.ofRoutine g rs r) (rs.withInputs inputs) r.outputs).get) := by
  rw [RegisterStep.mem_foldr_before, RegisterBlock.mem_liveOut]
  obtain ⟨j, hj, huses, hfree⟩ | ⟨hfree, hend⟩ := hlive
  · left
    obtain ⟨step, hstep⟩ := huses.exists_step
    refine ⟨j - (k + 1), step, ?_, (mem_reads_iff_uses hstep).2 huses,
      fun m hm earlier hearlier => ?_⟩
    · rwa [List.getElem?_drop, Nat.add_sub_cancel' hj]
    · rw [List.getElem?_drop] at hearlier
      rw [mem_writes_iff_defines hearlier]
      exact hfree _ (by omega) (by omega)
  · right
    refine ⟨fun step hstep => ?_, ?_⟩
    · obtain ⟨m, hm⟩ := List.mem_iff_getElem?.1 hstep
      rw [List.getElem?_drop] at hm
      rw [mem_writes_iff_defines hm]
      exact hfree _ (by omega)
    · refine hend.imp readsAtEnd_ofBlock.2 ?_
      rintro ⟨t, ht, hlive⟩
      obtain ⟨hedge, hmember⟩ := Graph.mem_successorsIn.1 ht
      have hnext : Reaches g r t := hb.tail ht List.not_mem_nil
      have hstays := takesOver?_eq_none hsep hr (WayTo.mem_members hb (hsep.entry_mem r hr)) hmember
      exact ⟨t, block_mem_onward.2 ⟨hedge, hstays⟩, (mem_liveness hdistinct).2
        ⟨_, mem_ofRoutine.2 ⟨t, hnext, rfl⟩, rfl,
          (liveFrom_ofBlock hsep hr hnext).2 hlive⟩⟩

/-- The clobbered registers of some routines are the least family that their blocks ask for. -/
structure LeastClobbers (g : Graph) (rs : Routines) : Prop where
  closed : Clobber g rs Routine.clobbers
  least : ∀ clobbers, Clobber g rs clobbers → ∀ r ∈ rs.all, ∀ q ∈ r.clobbers, q ∈ clobbers r

theorem leastClobbers_ofGraph (g : Graph) (roots : List BlockId) :
    LeastClobbers g (ofGraph g roots).1 := by
  refine ⟨clobber_ofGraph g roots, fun clobbers hclosed r hr q hq => ?_⟩
  have hnumbered : ∀ (n : Nat) r, (ofGraph g roots).1.all[n]? = some r →
      (((ofGraph g roots).1.all[n]?).map clobbers).getD ∅ = clobbers r := fun n r hn => by
    rw [hn, Option.map_some, Option.getD_some]
  have hblocks := (clobber_iff hnumbered).1 hclosed
  obtain ⟨n, hn⟩ := List.mem_iff_getElem?.1 hr
  rw [← hnumbered n r hn]
  rw [Routine.clobbers, interface_eq_number hn] at hq
  refine Interface.clobbers_solve_least
    (fun n => (((ofGraph g roots).1.all[n]?).map clobbers).getD ∅) (fun n f hf c hc q hq => ?_) hq
  rw [flows_eq_map, List.getElem?_map, Option.map_eq_some_iff] at hf
  obtain ⟨r, hn, rfl⟩ := hf
  obtain ⟨b, hb, rfl⟩ := mem_ofRoutine.1 hc
  rw [hnumbered n r hn]
  exact hblocks r (List.mem_of_getElem? hn) b hb q hq

/-- What some routines hand back. A routine hands back nothing that it does not change, and a
root everything that it changes; a register that is live behind a call is handed back if the
routine that is called changes it, and so is what a routine owes its own callers by one that
takes over from it. -/
structure KeepsLive (g : Graph) (rs : Routines) : Prop where
  changed : ∀ r ∈ rs.all, ∀ q ∈ r.outputs, q ∈ r.clobbers
  root : ∀ r ∈ rs.all, r.isRoot = true → r.outputs = r.clobbers
  calls : ∀ r ∈ rs.all, ∀ b, Reaches g r b → ∀ k < (g.block b).code.length, ∀ callee,
    ((g.block b).callAt? k).bind rs.atEntry? = some callee →
      ∀ q, LiveAfter g rs Routine.inputs r b k q → q ∈ callee.clobbers → q ∈ callee.outputs
  handsOver : ∀ r ∈ rs.all, ∀ b, Reaches g r b → ∀ t ∈ g.successors b, rs.handsOver b t = true →
    ∀ callee, rs.atEntry? t = some callee → ∀ q ∈ r.outputs, q ∈ callee.clobbers →
      q ∈ callee.outputs

theorem mem_outputs_ofGraph {n : Nat} (hn : (ofGraph g roots).1.all[n]? = some r)
    (hq : q ∈ r.clobbers)
    (hwanted : r.isRoot = true ∨ ∃ live, (n, live) ∈
      Interface.wanted (flows g roots) (Interface.solve (flows g roots)) ∧ q ∈ live) :
    q ∈ r.outputs := by
  rw [Routine.clobbers, interface_eq_number hn] at hq
  rw [Routine.outputs, interface_eq_number hn]
  exact Interface.mem_outputs_solve (getElem?_flows hn) hq hwanted

theorem outputs_subset_clobbers (hr : r ∈ (ofGraph g roots).1.all) (hq : q ∈ r.outputs) :
    q ∈ r.clobbers := by
  obtain ⟨n, hn⟩ := List.mem_iff_getElem?.1 hr
  rw [Routine.outputs, interface_eq_number hn] at hq
  rw [Routine.clobbers, interface_eq_number hn]
  exact (Interface.bounded_solve _).2 n q hq

section

variable (hrs : rs = (ofGraph g roots).1) (hr : r ∈ rs.all) (hb : Reaches g r b)

include hrs hr hb

theorem mem_outputs_of_liveAfter (hk : k < (g.block b).code.length)
    (hcallee : ((g.block b).callAt? k).bind rs.atEntry? = some callee)
    (hlive : LiveAfter g rs Routine.inputs r b k q) (hq : q ∈ callee.clobbers) :
    q ∈ callee.outputs := by
  subst hrs
  obtain ⟨m, hm⟩ := List.mem_iff_getElem?.1 hr
  obtain ⟨entry, hentry, hat⟩ := Option.bind_eq_some_iff.1 hcallee
  obtain ⟨n, hnumber, hn⟩ := exists_number hat
  have hcall : (ofBlock g (ofGraph g roots).1 b).steps[k]? =
      some (.call n (g.block b).code[k].effects.writes.registers) := by
    rw [ofBlock, List.getElem?_mapIdx, List.getElem?_eq_getElem hk, hentry,
      Option.bind_some, hnumber, Option.map_some]
  have hflow := getElem?_flows hm
  have hlive := hlive.mem_foldr_before (separate_ofGraph g roots) hr hb
    (distinct_flows g roots _ (List.mem_of_getElem? hflow))
  rw [withInputs_ofGraph, Routine.outputs, interface_eq_number hm] at hlive
  exact mem_outputs_ofGraph hn hq (.inr ⟨_, Interface.mem_wanted_of_call hflow
    (mem_ofRoutine.2 ⟨b, hb, rfl⟩) hcall, hlive⟩)

theorem mem_outputs_of_handsOver {t : BlockId} (ht : t ∈ g.successors b)
    (hover : rs.handsOver b t = true) (hcallee : rs.atEntry? t = some callee)
    (houtput : q ∈ r.outputs) (hq : q ∈ callee.clobbers) : q ∈ callee.outputs := by
  subst hrs
  obtain ⟨m, hm⟩ := List.mem_iff_getElem?.1 hr
  obtain ⟨n, hnumber, hn⟩ := exists_number hcallee
  rw [Routine.outputs, interface_eq_number hm] at houtput
  refine mem_outputs_ofGraph hn hq (.inr ⟨_, Interface.mem_wanted_of_onward (getElem?_flows hm)
    (mem_ofRoutine.2 ⟨b, hb, rfl⟩) ?_, houtput⟩)
  exact routine_mem_onward.2 ⟨t, ht, takesOver?_eq_some_iff.2 ⟨hover, hnumber⟩⟩

end

/-- No register that is live behind a call is lost, whatever calls whatever: the outputs of the
routines of a graph lie between what is wanted of them and what they change. -/
theorem outputs_keep_live (g : Graph) (roots : List BlockId) :
    KeepsLive g (ofGraph g roots).1 ∧ LeastClobbers g (ofGraph g roots).1 := by
  refine ⟨⟨fun _ hr _ hq => outputs_subset_clobbers hr hq, fun r hr hroot => ?_,
    fun _ hr _ hb _ hk _ hcallee _ hlive hq =>
      mem_outputs_of_liveAfter rfl hr hb hk hcallee hlive hq,
    fun _ hr _ hb _ ht hover _ hcallee _ houtput hq =>
      mem_outputs_of_handsOver rfl hr hb ht hover hcallee houtput hq⟩,
        leastClobbers_ofGraph g roots⟩
  obtain ⟨n, hn⟩ := List.mem_iff_getElem?.1 hr
  refine PerRegister.ext fun q => Bool.eq_iff_iff.2 ⟨outputs_subset_clobbers hr, fun hq => ?_⟩
  exact mem_outputs_ofGraph hn hq (.inl hroot)

/-- A routine that is called and also stands behind a jump that nothing leads to. -/
def deadJump : Graph where
  blocks := #[
    { label := some "Start", offset := 0, code := [⟨.jsr, .direct (.symbol "Sub") .absolute⟩,
        ⟨.ldx, .immediate (.byte 2)⟩, ⟨.rts, .implied⟩], calls := [(0, 2)] },
    { label := some "Dead", offset := 6, code := [⟨.jmp, .direct (.symbol "Sub") .absolute⟩],
      branch := some 2 },
    { label := some "Sub", offset := 9, code := [⟨.ldx, .immediate (.byte 1)⟩, ⟨.rts, .implied⟩],
      enteredFrom := .ofList [1] }]
  labels := [("Sub", 2), ("Dead", 1), ("Start", 0)]
  entry := some 0

/-- The jump counts for nothing: what its routine hands back, the other one changes and does
not hand back. -/
theorem deadJump_loses_output : ¬ ∀ r ∈ (ofGraph deadJump [0]).1.all, ∀ b ∈ r.blocks,
    ∀ t ∈ deadJump.successors b, (ofGraph deadJump [0]).1.handsOver b t = true →
      ∀ callee, Routines.atEntry? (ofGraph deadJump [0]).1 t = some callee →
        ∀ q ∈ r.outputs, q ∈ callee.clobbers → q ∈ callee.outputs := by
  have hlost : ∃ r ∈ (ofGraph deadJump [0]).1.all, 1 ∈ r.blocks ∧ .x ∈ r.outputs ∧
      ∃ callee ∈ (ofGraph deadJump [0]).1.all, Routines.atEntry? (ofGraph deadJump [0]).1 2 =
        some callee ∧ .x ∈ callee.clobbers ∧ .x ∉ callee.outputs := by
    decide +kernel
  have hover : 2 ∈ deadJump.successors 1 ∧ (ofGraph deadJump [0]).1.handsOver 1 2 = true := by
    decide +kernel
  obtain ⟨r, hr, hdead, houtput, callee, -, hcallee, hclobber, hkept⟩ := hlost
  exact fun h => hkept (h r hr 1 hdead 2 hover.1 hover.2 callee hcallee .x houtput hclobber)

end Routines

end Lift6502
