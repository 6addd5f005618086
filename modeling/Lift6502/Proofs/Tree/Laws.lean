import Lift6502.Proofs.Tree.Nesting

/-!
# Laws of tree runs

What every block keeps, a run of a tree keeps. A run that ends does so in the same way if loops may
take more passes and blocks end more often.
-/

namespace Lift6502

open Evaluator (isFor)

variable {ε ε' σ σ' ρ ρ' : Type} {M : BlockMachine ε σ} {M' : BlockMachine ε' σ'} {f : σ → σ'}
  {K : σ → σ → Prop} {fuel fuel' : Nat} {next header b : BlockId} {u : Surroundings} {r : ρ} {s : σ}
  {label : Option String} {x : σ ⊕ (Way × σ)} {again : σ → Bool} {again' : σ' → Bool} {limit : ε}
  {kind : LoopKind} {body : σ → Except ε (Way × σ)}

def BlockEnd.state : BlockEnd σ → σ
  | .on s | .finished s => s

theorem runPasses_keeps {pass : σ → Except ε (σ ⊕ ρ)}
    {J : σ → ρ → Prop} (hagain : ∀ {s s'}, pass s = .ok (.inl s') → K s s')
    (hend : ∀ {s r}, pass s = .ok (.inr r) → J s r) (htrans : ∀ {s t r}, K s t → J t r → J s r)
    {passes : Nat} (h : runPasses limit pass passes s = .ok r) : J s r := by
  induction passes generalizing s with
  | zero => cases h
  | succ passes ih =>
    rw [runPasses] at h
    rcases hpass : pass s with e | (t | r') <;> rw [hpass] at h
    · cases h
    · exact htrans (hagain hpass) (ih h)
    · cases h
      exact hend hpass

namespace ControlNode

def ownBlock? : ControlNode → Option BlockId
  | .block b => some b
  | .loop _ header .. => some header
  | _ => none

def blocksRun (nodes : List ControlNode) : List BlockId :=
  (listDescendants nodes).filterMap ownBlock?

theorem blocksRun_cons (n : ControlNode) (rest : List ControlNode) :
    blocksRun (n :: rest) = n.descendants.filterMap ownBlock? ++ blocksRun rest := by
  unfold blocksRun
  rw [listDescendants, List.filterMap_append]

theorem ownBlocks_cond (c : Condition) (t e : List ControlNode) (join : Option BlockId) :
    (descendants (.cond c t e join)).filterMap ownBlock? = blocksRun t ++ blocksRun e := by
  rw [descendants, List.filterMap_cons_none rfl, List.filterMap_append]
  rfl

theorem ownBlocks_loop (kind : LoopKind) (header : BlockId) (condition : Option Condition)
    (body : List ControlNode) (label : Option String) (follow : Option BlockId) :
    (descendants (.loop kind header condition body label follow)).filterMap ownBlock? =
      header :: blocksRun body := by
  rw [descendants]
  rfl

end ControlNode

/-- A jump back is for a loop around that is not tested at its end, and control leaves the tree only
for where it may. -/
def Way.FitsIn (u : Surroundings) (around : List LoopContext) : Way → Prop
  | .continueLoop label => ∃ c, LoopContext.named? label around = some c ∧ c.kind ≠ .postTest
  | .away t => u.away t
  | .onward | .breakLoop _ | .finished => True

theorem LoopContext.named?_cons (label : Option String) (c : LoopContext)
    (around : List LoopContext) :
    named? label (c :: around) = if isFor c.label label then some c else named? label around := by
  cases label with
  | none => rfl
  | some name =>
    unfold named?
    simp only [List.find?_cons]
    by_cases h : c.label = some name
    · simp [isFor, h]
    · have h' : ¬ some name = c.label := fun heq => h heq.symm
      have hne : (c.label == some name) = false := by simpa using h
      simp [isFor, h', hne]

namespace ControlNode

/-- A run inside some loops keeps what blocks keep, and control leaves it only for where it may. -/
def Obeys (K : σ → σ → Prop) (u : Surroundings) (around : List LoopContext) (s : σ)
    (r : Way × σ) : Prop :=
  K s r.2 ∧ r.1.FitsIn u around

def PassObeys (K : σ → σ → Prop) (u : Surroundings) (around : List LoopContext) (s : σ) :
    σ ⊕ (Way × σ) → Prop
  | .inl s' => K s s'
  | .inr r => Obeys K u around s r

variable {around : List LoopContext}

theorem Obeys.afterBody {r : Way × σ} (h : Obeys K u (⟨label, kind⟩ :: around) s r) :
    PassObeys K u around s (afterBody kind again label r) := by
  obtain ⟨way, s'⟩ := r
  obtain ⟨hkept, hfits⟩ := h
  cases way with
  | onward =>
    rw [ControlNode.afterBody]
    split
    · exact ⟨hkept, trivial⟩
    · exact hkept
  | continueLoop target =>
    rw [ControlNode.afterBody]
    split
    · exact hkept
    · next hfor =>
      -- A jump that the loop does not take is for a loop around it.
      obtain ⟨c, hc, hkind⟩ := hfits
      rw [LoopContext.named?_cons, if_neg hfor] at hc
      exact ⟨hkept, c, hc, hkind⟩
  | breakLoop target =>
    rw [ControlNode.afterBody]
    split <;> exact ⟨hkept, trivial⟩
  | finished | away => exact ⟨hkept, hfits⟩

structure Kept (M : BlockMachine ε σ) (K : σ → σ → Prop) (bs : List BlockId) : Prop where
  refl : ∀ s, K s s
  trans : ∀ {s t u}, K s t → K t u → K s u
  block : ∀ b ∈ bs, ∀ {s e}, M.run b s = .ok e → K s e.state

theorem Kept.mono {bs bs' : List BlockId} (h : Kept M K bs) (hsub : ∀ b ∈ bs', b ∈ bs) :
    Kept M K bs' :=
  ⟨h.refl, h.trans, fun b hb => h.block b (hsub b hb)⟩

theorem Kept.pass (h : Kept M K [header])
    (hbody : ∀ {s r}, body s = .ok r → Obeys K u (⟨label, kind⟩ :: around) s r)
    (hx : pass M kind header again label body s = .ok x) : PassObeys K u around s x := by
  have hafter : ∀ {s x}, (body s).map (ControlNode.afterBody kind again label) = .ok x →
      PassObeys K u around s x := by
    intro s x hx
    rcases hrun : body s with e | r <;> rw [hrun] at hx <;> cases hx
    exact (hbody hrun).afterBody
  unfold ControlNode.pass at hx
  cases kind with
  | postTest | infinite => exact hafter hx
  | preTest =>
    simp only at hx
    rcases hrun : M.run header s with e | (s₁ | s₁) <;> rw [hrun] at hx
    · cases hx
    · have hheader : K s s₁ := h.block header List.mem_cons_self hrun
      simp only at hx
      split at hx
      · have hx := hafter hx
        cases x with
        | inl => exact h.trans hheader hx
        | inr => exact hx.imp_left (h.trans hheader)
      · cases hx
        exact ⟨hheader, trivial⟩
    · cases hx
      exact ⟨h.block header List.mem_cons_self hrun, trivial⟩

mutual

theorem Kept.runNode (n : ControlNode) (h : Kept M K (n.descendants.filterMap ownBlock?))
    {around : List LoopContext} (hwell : u.WellFormed around n) {s : σ} {r : Way × σ}
    (hrun : n.run M fuel next s = .ok r) : Obeys K u around s r := by
  cases n with
  | block b =>
    rw [run] at hrun
    have hown : b ∈ (descendants (.block b)).filterMap ownBlock? := by
      simp [descendants, ownBlock?]
    rcases hb : M.run b s with e | (s₁ | s₁) <;> rw [hb] at hrun <;> cases hrun
    · exact ⟨h.block b hown hb, trivial⟩
    · exact ⟨h.block b hown hb, trivial⟩
  | cond c t e join =>
    rw [run] at hrun
    rw [ownBlocks_cond] at h
    split at hrun
    · exact Kept.runNodes t (h.mono fun b hb => List.mem_append_left _ hb) hwell.2.1 hrun
    · exact Kept.runNodes e (h.mono fun b hb => List.mem_append_right _ hb) hwell.2.2 hrun
  | loop kind header condition body label follow =>
    rw [run] at hrun
    rw [ownBlocks_loop] at h
    have hheader : Kept M K [header] := h.mono fun b hb => by
      rw [List.mem_singleton.1 hb]
      exact List.mem_cons_self
    have hbody : Kept M K (blocksRun body) := h.mono fun b hb => List.mem_cons_of_mem header hb
    have hbodyRun : ∀ {s r}, runAll M fuel next body s = .ok r →
        Obeys K u (⟨label, kind⟩ :: around) s r := Kept.runNodes body hbody hwell.2.2
    refine runPasses_keeps (K := K) (J := Obeys K u around) ?_ ?_
      (fun hst => And.imp_left (h.trans hst)) hrun
    · exact fun hpass => hheader.pass hbodyRun hpass
    · exact fun hpass => hheader.pass hbodyRun hpass
  | breakLoop label =>
    rw [run] at hrun
    cases hrun
    exact ⟨h.refl s, trivial⟩
  | goto b | continueLoop label =>
    rw [run] at hrun
    cases hrun
    exact ⟨h.refl s, hwell⟩

theorem Kept.runNodes (nodes : List ControlNode) (h : Kept M K (blocksRun nodes))
    {around : List LoopContext} (hwell : u.AllWellFormed around nodes) {s : σ} {r : Way × σ}
    (hrun : runAll M fuel next nodes s = .ok r) : Obeys K u around s r := by
  cases nodes with
  | nil =>
    rw [runAll] at hrun
    cases hrun
    exact ⟨h.refl s, trivial⟩
  | cons n rest =>
    rw [runAll] at hrun
    rw [blocksRun_cons] at h
    have hn : Kept M K (n.descendants.filterMap ownBlock?) :=
      h.mono fun b hb => List.mem_append_left _ hb
    rcases hfirst : n.run M fuel next s with e | ⟨way₁, s₁⟩ <;> rw [hfirst] at hrun
    · cases hrun
    · have hs₁ := Kept.runNode n hn hwell.1 hfirst
      cases way₁ with
      | onward =>
        have hrest := h.mono fun b hb => List.mem_append_right _ hb
        exact (Kept.runNodes rest hrest hwell.2 hrun).imp_left (h.trans hs₁.1)
      | breakLoop | continueLoop | finished | away =>
        cases hrun
        exact hs₁

end

theorem fitsIn_runAll {nodes : List ControlNode} (h : u.AllWellFormed around nodes) {s : σ}
    {r : Way × σ} (hrun : runAll M fuel next nodes s = .ok r) : r.1.FitsIn u around :=
  (Kept.runNodes (K := fun _ _ => True) nodes
    ⟨fun _ => trivial, fun _ _ => trivial, fun _ _ _ _ _ => trivial⟩ h hrun).2

end ControlNode

mutual

theorem runs_of_mem_ownBlocks {around : List LoopContext} (n : ControlNode)
    (h : u.WellFormed around n) (hb : b ∈ n.descendants.filterMap ControlNode.ownBlock?) :
    u.runs b := by
  cases n with
  | block c =>
    have hb : b = c := by simpa [ControlNode.descendants, ControlNode.ownBlock?] using hb
    exact hb ▸ h
  | cond c t e join =>
    rw [ControlNode.ownBlocks_cond, List.mem_append] at hb
    rcases hb with hb | hb
    · exact runs_of_mem_blocksRun t h.2.1 hb
    · exact runs_of_mem_blocksRun e h.2.2 hb
  | loop kind header condition body label follow =>
    rw [ControlNode.ownBlocks_loop, List.mem_cons] at hb
    rcases hb with rfl | hb
    · exact h.1
    · exact runs_of_mem_blocksRun body h.2.2 hb
  | goto | breakLoop | continueLoop => simp [ControlNode.descendants, ControlNode.ownBlock?] at hb

theorem runs_of_mem_blocksRun {around : List LoopContext} (nodes : List ControlNode)
    (h : u.AllWellFormed around nodes) (hb : b ∈ ControlNode.blocksRun nodes) : u.runs b := by
  cases nodes with
  | nil => exact absurd hb List.not_mem_nil
  | cons n rest =>
    rw [ControlNode.blocksRun_cons, List.mem_append] at hb
    rcases hb with hb | hb
    · exact runs_of_mem_ownBlocks n h.1 hb
    · exact runs_of_mem_blocksRun rest h.2 hb

end

/-! ## Runs that end -/

def BlockEnd.map (f : σ → σ') : BlockEnd σ → BlockEnd σ'
  | .on s => .on (f s)
  | .finished s => .finished (f s)

/-- A block that ends does so in `M'` too, where `f` gives the states. -/
structure BlockMachine.Le (f : σ → σ') (M : BlockMachine ε σ) (M' : BlockMachine ε' σ') : Prop where
  run : ∀ {b s e}, M.run b s = .ok e → M'.run b (f s) = .ok (e.map f)
  taken : ∀ b s, M'.taken b (f s) = M.taken b s

theorem runPasses_mono {limit' : ε'} {g : ρ → ρ'} {pass : σ → Except ε (σ ⊕ ρ)}
    {pass' : σ' → Except ε' (σ' ⊕ ρ')} (h : ∀ {s x}, pass s = .ok x → pass' (f s) = .ok (x.map f g))
    {n m : Nat} (hle : n ≤ m) (hrun : runPasses limit pass n s = .ok r) :
    runPasses limit' pass' m (f s) = .ok (g r) := by
  induction n generalizing m s with
  | zero => cases hrun
  | succ n ih =>
    obtain ⟨m, rfl⟩ : ∃ k, m = k + 1 := ⟨m - 1, by omega⟩
    rw [runPasses] at hrun ⊢
    rcases hpass : pass s with e | (s₁ | r₁) <;> rw [hpass] at hrun
    · cases hrun
    · rw [h hpass]
      exact ih (by omega) hrun
    · rw [h hpass]
      cases hrun
      rfl

namespace ControlNode

theorem afterBody_map (hagain : ∀ s, again' (f s) = again s) (r : Way × σ) :
    afterBody kind again' label (r.map id f) =
      (afterBody kind again label r).map f (Prod.map id f) := by
  obtain ⟨way, s⟩ := r
  cases way with
  | onward | continueLoop | breakLoop =>
    simp only [Prod.map, id, afterBody, hagain]
    split <;> rfl
  | finished | away => rfl

theorem pass_mono (hM : M.Le f M') (hagain : ∀ s, again' (f s) = again s)
    {body' : σ' → Except ε' (Way × σ')}
    (hbody : ∀ {s r}, body s = .ok r → body' (f s) = .ok (r.map id f))
    (h : pass M kind header again label body s = .ok x) :
    pass M' kind header again' label body' (f s) = .ok (x.map f (Prod.map id f)) := by
  have hmap : ∀ {s x}, (body s).map (afterBody kind again label) = .ok x →
      (body' (f s)).map (afterBody kind again' label) = .ok (x.map f (Prod.map id f)) := by
    intro s x hx
    rcases hr : body s with e | r <;> rw [hr] at hx <;> cases hx
    rw [hbody hr, Except.map, afterBody_map hagain]
  unfold pass at h ⊢
  cases kind with
  | postTest | infinite => exact hmap h
  | preTest =>
    simp only at h ⊢
    rcases hheader : M.run header s with e | (s₁ | s₁) <;> rw [hheader] at h
    · cases h
    · rw [hM.run hheader]
      simp only [BlockEnd.map, hagain] at h ⊢
      split at h
      · next hs =>
        rw [if_pos hs]
        exact hmap h
      · next hs =>
        rw [if_neg hs]
        cases h
        rfl
    · rw [hM.run hheader]
      cases h
      rfl

mutual

theorem run_mono (hM : M.Le f M') (hle : fuel ≤ fuel') (n : ControlNode) {s : σ} {r : Way × σ}
    (h : n.run M fuel next s = .ok r) : n.run M' fuel' next (f s) = .ok (r.map id f) := by
  have hholds : ∀ c s, Condition.holds M' next (f s) c = Condition.holds M next s c := by
    intro c s
    cases c with
    | branch b taken => simp only [Condition.holds, hM.taken]
    | dispatch b => rfl
  cases n with
  | block b =>
    rw [run] at h ⊢
    rcases hb : M.run b s with e | (s₁ | s₁) <;> rw [hb] at h <;> cases h
    · rw [hM.run hb]
      rfl
    · rw [hM.run hb]
      rfl
  | cond c t e join =>
    rw [run] at h ⊢
    rw [hholds]
    split at h
    · next hc =>
      rw [if_pos hc]
      exact runAll_mono hM hle t h
    · next hc =>
      rw [if_neg hc]
      exact runAll_mono hM hle e h
  | loop kind header condition body label follow =>
    rw [run] at h ⊢
    have hagain : ∀ s, condition.all (Condition.holds M' next (f s)) =
        condition.all (Condition.holds M next s) := by
      intro s
      cases condition with
      | none => rfl
      | some c => exact hholds c s
    exact runPasses_mono (fun hpass => pass_mono hM hagain (runAll_mono hM hle body) hpass) hle h
  | goto b | breakLoop label | continueLoop label =>
    rw [run] at h ⊢
    cases h
    rfl

theorem runAll_mono (hM : M.Le f M') (hle : fuel ≤ fuel') (nodes : List ControlNode) {s : σ}
    {r : Way × σ} (h : runAll M fuel next nodes s = .ok r) :
    runAll M' fuel' next nodes (f s) = .ok (r.map id f) := by
  cases nodes with
  | nil =>
    rw [runAll] at h ⊢
    cases h
    rfl
  | cons n rest =>
    rw [runAll] at h ⊢
    rcases hfirst : n.run M fuel next s with e | ⟨way, s₁⟩ <;> rw [hfirst] at h
    · cases h
    · rw [run_mono hM hle n hfirst]
      cases way with
      | onward => exact runAll_mono hM hle rest h
      | breakLoop | continueLoop | finished | away =>
        cases h
        rfl

end

end ControlNode

end Lift6502
