import Lift6502.Proofs.Tree.Laws
import Lift6502.Proofs.Tree.Machine

/-!
# Runs that are allowed more

A run that ends is not changed by what it did not need: more passes, calls that nest deeper,
instructions and routines that it never got to.
-/

namespace Lift6502

theorem Core.step_mono {work? work?' : Option Work} (h : ∀ w, work? = some w → work?' = some w)
    {opcode : Opcode} {core core' : Core} (hstep : core.step work? opcode = some core') :
    core.step work?' opcode = some core' := by
  cases work? with
  -- Without anything to work on, only an instruction that needs nothing runs.
  | none => cases opcode <;> first | exact hstep | cases hstep
  | some w =>
    rw [h w rfl]
    exact hstep

/-- A rule for calls gives what another one gives for the routines that can be called. -/
def Setting.CallsLe (S : Setting) (call call' : TreeCall) : Prop :=
  ∀ {entry callee c c'}, S.routines.atEntry? entry = some callee → call callee c = .ok c' →
    call' callee c = .ok c'

structure Setting.Le (S S' : Setting) : Prop where
  graph : S'.graph = S.graph
  routines : S'.routines = S.routines
  work : ∀ b, ∀ i ∈ (S.graph.block b).code, ∀ c w, S.work? i c = some w → S'.work? i c = some w

theorem Setting.Le.refl (S : Setting) : S.Le S := ⟨rfl, rfl, fun _ _ _ _ _ h => h⟩

theorem ControlNode.runArms_mono {ε σ : Type} {M M' : BlockMachine ε σ} (hM : M.Le id M')
    {fuel fuel' : Nat} (hfuel : fuel ≤ fuel') {members : BlockSet} {arms : List ControlNode}
    {passes passes' : Nat} (hpasses : passes ≤ passes') {next : BlockId} {s : σ} {r : Way × σ}
    (h : runArms M fuel members arms passes next s = .ok r) :
    runArms M' fuel' members arms passes' next s = .ok r := by
  -- Induction on the passes of the shorter run; the longer one has at least as many.
  induction passes generalizing passes' next s with
  | zero => cases h
  | succ passes ih =>
    obtain ⟨passes', rfl⟩ : ∃ n, passes' = n + 1 := ⟨passes' - 1, by omega⟩
    rw [runArms] at h ⊢
    rcases hrun : runAll M fuel next arms s with e | ⟨way, s₁⟩ <;> rw [hrun] at h
    · cases h
    have hmore : runAll M' fuel' next arms s = .ok (way, s₁) := runAll_mono hM hfuel arms hrun
    rw [hmore]
    cases way with
    | onward => exact ih (by omega) h
    | away t =>
      simp only at h ⊢
      split at h
      · next ht =>
        rw [if_pos ht]
        exact ih (by omega) h
      · next ht =>
        rw [if_neg ht]
        exact h
    | finished | breakLoop | continueLoop => exact h

namespace Setting

variable {S S' : Setting} {call call' : TreeCall} {fuel fuel' : Nat}
  {r : Routine} {core core' : Core} {result : Way × Core}

section

variable (h : S.Le S') (hcalls : S.CallsLe call call')

include h hcalls

theorem Le.runCode {block : Block} {index : Nat} {code : List Instruction}
    (hwork : ∀ i ∈ code, ∀ c w, S.work? i c = some w → S'.work? i c = some w) {e : BlockEnd Core}
    (hrun : S.runCode call block index code core = .ok e) :
    S'.runCode call' block index code core = .ok e := by
  induction code generalizing index core with
  | nil => exact hrun
  | cons i rest ih =>
    have hrest : ∀ j ∈ rest, ∀ c w, S.work? j c = some w → S'.work? j c = some w :=
      fun j hj => hwork j (List.mem_cons_of_mem i hj)
    by_cases hrts : i.opcode = .rts
    · rw [Setting.runCode, hrts] at hrun ⊢
      exact hrun
    by_cases hjsr : i.opcode = .jsr
    · rw [Setting.runCode, hjsr] at hrun ⊢
      simp only [h.routines] at hrun ⊢
      rcases hcallee : (block.callAt? index).bind S.routines.atEntry? with _ | callee <;>
        simp only [hcallee] at hrun ⊢
      · cases hrun
      obtain ⟨entry, -, hentry⟩ := Option.bind_eq_some_iff.1 hcallee
      rcases hresult : call callee core with e' | core₁ <;> simp only [hresult] at hrun
      · cases hrun
      · rw [hcalls hentry hresult]
        exact ih hrest hrun
    · rw [runCode_cons hjsr hrts] at hrun ⊢
      rcases hstep : core.step (S.work? i core.cpu) i.opcode with _ | core₁ <;> rw [hstep] at hrun
      · cases hrun
      · rw [Core.step_mono (hwork i List.mem_cons_self core.cpu) hstep]
        exact ih hrest hrun

theorem Le.machine : (S.machine call).Le id (S'.machine call') := by
  refine ⟨fun {b s e} hrun => ?_, fun b s => ?_⟩
  · have hend : e.map id = e := by cases e <;> rfl
    show S'.runCode call' (S'.graph.block b) 0 (S'.graph.block b).code s = .ok (e.map id)
    rw [h.graph, hend]
    exact h.runCode hcalls (h.work b) hrun
  · unfold Setting.machine
    rw [h.graph]
    rfl

theorem Le.runTree (hfuel : fuel ≤ fuel') {t : ControlTree}
    (hrun : S.runTree call fuel r t core = .ok result) :
    S'.runTree call' fuel' r t core = .ok result := by
  unfold Setting.runTree at hrun ⊢
  split at hrun
  · next hstructured =>
    rw [if_pos hstructured]
    exact ControlNode.runAll_mono (h.machine hcalls) hfuel _ hrun
  · next hstructured =>
    rw [if_neg hstructured]
    split at hrun
    · exact ControlNode.runArms_mono (h.machine hcalls) hfuel hfuel hrun
    · cases hrun

theorem Le.finish (hrun : S.finish call result = .ok core') :
    S'.finish call' result = .ok core' := by
  obtain ⟨way, core⟩ := result
  cases way with
  | onward | finished | breakLoop | continueLoop => exact hrun
  | away t =>
    unfold Setting.finish at hrun ⊢
    simp only [h.routines] at hrun ⊢
    rcases hcallee : S.routines.atEntry? t with _ | callee <;> simp only [hcallee] at hrun ⊢
    · cases hrun
    · exact hcalls hcallee hrun

theorem Le.enter (hfuel : fuel ≤ fuel') (hrun : S.enter call fuel r core = .ok core') :
    S'.enter call' fuel' r core = .ok core' := by
  unfold Setting.enter at hrun ⊢
  rw [h.graph]
  rcases htree : S.runTree call fuel r (Layout.ofRoutine S.graph r).tree.1 core with e | result <;>
    rw [htree] at hrun
  · cases hrun
  · rw [h.runTree hcalls hfuel htree]
    exact h.finish hcalls hrun

end

theorem Le.run (h : S.Le S') (hfuel : fuel ≤ fuel') {depth depth' : Nat} (hdepth : depth ≤ depth')
    (hrun : S.run fuel depth r core = .ok core') : S'.run fuel' depth' r core = .ok core' := by
  -- Induction on the depth: what is called one level below ends as before.
  induction depth generalizing depth' r core core' with
  | zero => cases hrun
  | succ depth ih =>
    obtain ⟨depth', rfl⟩ : ∃ n, depth' = n + 1 := ⟨depth' - 1, by omega⟩
    exact h.enter (fun _ hcall => ih (by omega) hcall) hfuel hrun

variable {coded : Routine → Bool} {depth : Nat}

theorem run_of_runCoded (hrun : S.runCoded coded fuel depth r core = .ok core') :
    S.run fuel depth r core = .ok core' := by
  induction depth generalizing r core core' with
  | zero => cases hrun
  | succ depth ih =>
    rw [runCoded] at hrun
    split at hrun
    · exact (Le.refl S).enter (fun _ hcall => ih hcall) (Nat.le_refl fuel) hrun
    · cases hrun

theorem runCoded_of_run (hcoded : ∀ q ∈ S.routines.all, coded q = true) (hr : r ∈ S.routines.all)
    (hrun : S.run fuel depth r core = .ok core') :
    S.runCoded coded fuel depth r core = .ok core' := by
  induction depth generalizing r core core' with
  | zero => cases hrun
  | succ depth ih =>
    rw [runCoded, if_pos (hcoded r hr)]
    -- Calls and jumps lead to routines of the program only, and these have code.
    exact (Le.refl S).enter (fun hcallee hcall => ih (List.mem_of_find?_eq_some hcallee) hcall)
      (Nat.le_refl fuel) hrun

end Setting

end Lift6502
