import Lift6502.Proofs.Tree.Faithful
import Lift6502.Proofs.Tree.Placement

/-!
# Jumps in a tree stand in the loops that they name

In a well-formed tree every jump stands in a loop that it names, and control leaves the tree only
for places outside it. Arranged trees are well formed: a tested loop has one exit, at its test.
-/

namespace Lift6502

structure LoopContext where
  label : Option String
  kind : LoopKind
  deriving DecidableEq, Repr

namespace LoopContext

/-- The loop that a jump is for: the innermost one, or the innermost one with the label. -/
def named? (label : Option String) (around : List LoopContext) : Option LoopContext :=
  match label with
  | none => around.head?
  | some name => around.find? fun c => c.label == some name

end LoopContext

def LoopKind.isTested : LoopKind → Bool
  | .infinite => false
  | .preTest | .postTest => true

/-- What a tree is about: a graph, the blocks that may stand in the tree, and the ones that control
may leave it for. -/
structure Surroundings where
  graph : Graph
  runs : BlockId → Prop
  away : BlockId → Prop

namespace Surroundings

variable (u : Surroundings)

def Tests (b : BlockId) : Prop := u.runs b ∧ (u.graph.block b).isConditional = true

def TestsCondition : Condition → Prop
  | .branch b _ => u.Tests b
  | .dispatch _ => False

/-- The test of a loop. A header with a test of its own works on registers only and leads on. -/
def TestsLoop (header : BlockId) : LoopKind → Option Condition → Prop
  | .infinite, condition => condition = none
  | .postTest, condition => ∃ test, condition = some test ∧ u.TestsCondition test
  | .preTest, condition => ∃ sense, condition = some (.branch header sense) ∧ u.Tests header ∧
      (u.graph.block header).successors ≠ [] ∧
      (u.graph.block header).code.all Instruction.worksOnRegisters = true

mutual

/-- A well-formed node inside some loops, the innermost first. -/
def WellFormed : List LoopContext → ControlNode → Prop
  | _, .block b => u.runs b
  | around, .cond condition thenBranch elseBranch _ =>
    u.TestsCondition condition ∧ AllWellFormed around thenBranch ∧ AllWellFormed around elseBranch
  | around, .loop kind header condition body label _ =>
    u.runs header ∧ u.TestsLoop header kind condition ∧
      AllWellFormed (⟨label, kind⟩ :: around) body
  | _, .goto b => u.away b
  | around, .breakLoop label =>
    ∃ c, LoopContext.named? label around = some c ∧ c.kind.isTested = false
  | around, .continueLoop label =>
    ∃ c, LoopContext.named? label around = some c ∧ c.kind ≠ .postTest

def AllWellFormed : List LoopContext → List ControlNode → Prop
  | _, [] => True
  | around, node :: rest => WellFormed around node ∧ AllWellFormed around rest

end

variable {u} {around : List LoopContext} {nodes rest : List ControlNode}

theorem AllWellFormed.append (h : u.AllWellFormed around nodes) (h' : u.AllWellFormed around rest) :
    u.AllWellFormed around (nodes ++ rest) := by
  induction nodes with
  | nil => exact h'
  | cons n nodes ih => exact ⟨h.1, ih h.2⟩

theorem AllWellFormed.dropLast (h : u.AllWellFormed around nodes) :
    u.AllWellFormed around nodes.dropLast := by
  induction nodes with
  | nil => exact h
  | cons n nodes ih =>
    cases nodes with
    | nil => trivial
    | cons m nodes => exact ⟨h.1, ih h.2⟩

theorem AllWellFormed.withoutFinalContinue (h : u.AllWellFormed around nodes) :
    u.AllWellFormed around (Layout.withoutFinalContinue nodes) := by
  unfold Layout.withoutFinalContinue
  split
  · exact h.dropLast
  · exact h

theorem allWellFormed_singleton {n : ControlNode} :
    u.AllWellFormed around [n] ↔ u.WellFormed around n := and_iff_left trivial

end Surroundings

namespace Layout

open ControlNode

variable {l : Layout} {scope : Scope} {s s' : Arrangement} {b t x : BlockId}
  {loop inner outer : NaturalLoop} {taken fall j : BlockId}

/-! ## Loops that end by their own test -/

/-- The loop has a test, at the source of its one exit. -/
def TestedAt (l : Layout) (loop : NaturalLoop) (source : BlockId) : Prop :=
  l.formOf loop = .postTest source ∨ source = loop.header ∧ ∃ entry, l.formOf loop = .preTest entry

theorem exists_testedAt (h : (l.formOf loop).kind.isTested = true) : ∃ x, l.TestedAt loop x := by
  cases hform : l.formOf loop with
  | preTest entry => exact ⟨loop.header, .inr ⟨rfl, entry, hform⟩⟩
  | postTest latch => exact ⟨latch, .inl hform⟩
  | infinite =>
    rw [hform] at h
    cases h

theorem exitEdges_of_testedAt (h : l.TestedAt loop x) :
    ∃ f, (l.scopeOf loop).follow = some f ∧ loop.exitEdges l.graph = [(x, f)] := by
  rcases h with h | ⟨rfl, entry, h⟩
  · obtain ⟨f, hf, hexits, -⟩ := loopForm_eq_postTest h
    exact ⟨f, hf, hexits⟩
  · obtain ⟨f, hf, hexits, -⟩ := loopForm_eq_preTest h
    exact ⟨f, hf, hexits⟩

theorem mem_body_of_edge (h : l.TestedAt loop x) (hb : b ∈ loop.body) (hne : b ≠ x)
    (hedge : t ∈ l.graph.successors b) : t ∈ loop.body := by
  obtain ⟨f, -, hexits⟩ := exitEdges_of_testedAt h
  by_contra hout
  have hmem := mem_exitEdges.2 ⟨hb, hedge, hout⟩
  rw [hexits, List.mem_singleton] at hmem
  exact hne (Prod.mk.inj hmem).1

theorem test_not_mem_inner (hl : l.Standard) (hinner : inner ∈ l.loops.loops)
    (houter : outer ∈ l.loops.loops) (hin : inner.header ∈ outer.body)
    (hne : inner.header ≠ outer.header) (h : l.TestedAt outer x) : x ∉ inner.body := by
  have hheader : outer.header ∉ inner.body :=
    LoopForest.header_not_mem_inner hl.verified hl.entry_mem
    (hl.mem_loops hinner) (hl.mem_loops houter) hin hne
  rcases h with h | ⟨rfl, -⟩
  · intro hx
    obtain ⟨least, hleast, heq⟩ := (loopForm_postTest_spec h).1
    obtain ⟨hmem, -, hsmallest⟩ := LoopForest.of_innermost? hleast
    have hsame : least = outer :=
      LoopForest.eq_of_header_eq (hl.mem_loops hmem) (hl.mem_loops houter) heq
    have hsize := hsmallest inner hinner hx
    rw [hsame] at hsize
    have hless := BlockSet.size_lt_size
      (fun c hc => hl.body_subset hinner houter hin hne hc) (hl.header_mem_body houter) hheader
    omega
  · exact hheader

/-! ## Positions inside tested loops -/

def Stays (l : Layout) (scope : Scope) (b : BlockId) : Prop :=
  ∀ loop ∈ l.loops.loops, l.scopeOf loop ∈ scope.enclosing → ∀ x, l.TestedAt loop x → b ∈ loop.body

/-- The tests of the loops around the position are placed before or after, not in between. -/
def Spares (l : Layout) (scope : Scope) (s s' : Arrangement) : Prop :=
  ∀ loop ∈ l.loops.loops, l.scopeOf loop ∈ scope.enclosing → ∀ x, l.TestedAt loop x →
    x ∈ s.placed ∨ x ∉ s'.placed

theorem Spares.mono {s1 s2 : Arrangement} (h : l.Spares scope s s')
    (h1 : ∀ b ∈ s.placed, b ∈ s1.placed) (h2 : ∀ b ∈ s2.placed, b ∈ s'.placed) :
    l.Spares scope s1 s2 := by
  intro loop hloop hmem x hx
  exact (h loop hloop hmem x hx).imp (h1 x) fun hnot hin => hnot (h2 x hin)

def Advances (l : Layout) (scope : Scope) (t : BlockId) : Prop :=
  ∀ loop ∈ l.loops.loops, l.scopeOf loop ∈ scope.enclosing → (l.formOf loop).kind = .postTest →
    t ≠ loop.header

theorem eq_of_postTest (hl : l.Standard) (hloop : loop ∈ l.loops.loops)
    (h : (l.formOf loop).kind = .postTest) (hb : b ∈ loop.body)
    (hedge : loop.header ∈ l.graph.successors b) : l.TestedAt loop b := by
  cases hform : l.formOf loop with
  | preTest | infinite =>
    rw [hform] at h
    cases h
  | postTest latch =>
    obtain ⟨-, -, -, hlatches, -⟩ := loopForm_eq_postTest hform
    have hlatch := hl.mem_latches hloop hb hedge
    rw [BlockSet.mem_iff, hlatches, List.mem_singleton] at hlatch
    rw [hlatch]
    exact .inl hform

theorem stays_and_advances_of_edge (hl : l.Standard)
    (h : ∀ loop ∈ l.loops.loops, l.scopeOf loop ∈ scope.enclosing → ∀ x, l.TestedAt loop x →
      b ∈ loop.body ∧ b ≠ x)
    (hedge : t ∈ l.graph.successors b) : l.Stays scope t ∧ l.Advances scope t := by
  refine ⟨fun loop hloop hmem x hx => ?_, fun loop hloop hmem hkind heq => ?_⟩
  · obtain ⟨hb, hne⟩ := h loop hloop hmem x hx
    exact mem_body_of_edge hx hb hne hedge
  · have htested : (l.formOf loop).kind.isTested = true := by rw [hkind]; rfl
    obtain ⟨x, hx⟩ := exists_testedAt htested
    have htest := eq_of_postTest hl hloop hkind (h loop hloop hmem x hx).1 (heq ▸ hedge)
    exact (h loop hloop hmem b htest).2 rfl

theorem Stays.edge (hl : l.Standard) (h : l.Stays scope b) (hspares : l.Spares scope s s')
    (hfresh : b ∉ s.placed) (hplaced : b ∈ s'.placed) (hedge : t ∈ l.graph.successors b) :
    l.Stays scope t ∧ l.Advances scope t := by
  refine stays_and_advances_of_edge hl (fun loop hloop hmem x hx => ?_) hedge
  refine ⟨h loop hloop hmem x hx, fun heq => ?_⟩
  rcases hspares loop hloop hmem x hx with hin | hout
  · exact hfresh (heq ▸ hin)
  · exact hout (heq ▸ hplaced)

theorem Stays.follow (hl : l.Standard) (hloop : loop ∈ l.loops.loops)
    (hnew : ∀ c ∈ scope.enclosing, c.header ≠ loop.header) (h : l.Stays scope loop.header)
    (hfollow : (l.scopeOf loop).follow = some t) : l.Stays scope t ∧ l.Advances scope t := by
  obtain ⟨-, -, y, hy, hedge⟩ := hl.follow_spec hfollow
  refine stays_and_advances_of_edge hl (fun outer houter hmem x hx => ?_) hedge
  have hin := h outer houter hmem x hx
  have hne : loop.header ≠ outer.header := (hnew _ hmem).symm
  refine ⟨hl.body_subset hloop houter hin hne hy, fun heq => ?_⟩
  exact test_not_mem_inner hl hloop houter hin hne hx (heq ▸ hy)

/-- A loop around the position lies in all tested loops around itself. -/
def Sunk (l : Layout) (scopes : List LoopScope) : Prop :=
  scopes.Pairwise fun c d => ∀ loop ∈ l.loops.loops, d = l.scopeOf loop → ∀ x, l.TestedAt loop x →
    c.header ∈ loop.body

theorem exists_isForward {g : Graph} {accepted : BlockId → BlockId → Bool}
    {source target avoided : BlockId} (h : reaches g accepted source target avoided = true)
    (hne : source ≠ target) : ∃ c, accepted c target = true := by
  unfold reaches at h
  simp only [List.contains_iff_mem] at h
  rw [mem_reachableAvoiding] at h
  · obtain ⟨c, hc⟩ := h.exists_edge hne
    split at hc
    · cases hc
    · exact ⟨c, (List.mem_filter.1 hc).2⟩
  · intro b hb
    apply Graph.lt_size_of_successors_ne_nil
    intro hnil
    apply hb
    simp [hnil]

theorem Stays.join (hl : l.Standard) (hscope : l.Encloses scope.enclosing)
    (hsunk : l.Sunk scope.enclosing) (htaken : l.Stays scope taken ∧ l.Advances scope taken)
    (hfall : l.Stays scope fall ∧ l.Advances scope fall)
    (h : meetingPoint? l.graph l.dominators (l.isForward scope) b taken fall = some j) :
    l.Stays scope j ∧ l.Advances scope j := by
  rcases meetingPoint?_cases h with rfl | rfl | ⟨-, -, hne, hreaches⟩
  · exact hfall
  · exact htaken
  -- The last edge on the way from an arm leads into the innermost loop, and back to no header.
  obtain ⟨y, hy⟩ := exists_isForward hreaches hne.symm
  unfold isForward at hy
  refine ⟨fun outer houter hmem x hx => ?_, fun loop _ hmem _ heq => ?_⟩
  · cases henclosing : scope.enclosing with
    | nil =>
      rw [henclosing] at hmem
      cases hmem
    | cons c rest =>
      rw [henclosing] at hy hmem hscope hsunk
      obtain ⟨first, hfirst, rfl⟩ := hscope.loops c List.mem_cons_self
      have hj : j ∈ first.body := by
        simp only [Bool.and_eq_true] at hy
        exact BlockSet.contains_iff.1 hy.2
      rcases List.mem_cons.1 hmem with heq | hmem
      · have hbody : outer.body = first.body := congrArg LoopScope.body heq
        rw [hbody]
        exact hj
      · have hin := (List.pairwise_cons.1 hsunk).1 _ hmem outer houter rfl x hx
        have hne := ((List.pairwise_cons.1 hscope.within).1 _ hmem).header_ne
        exact hl.body_subset hfirst houter hin hne hj
  · simp only [Bool.and_eq_true, Bool.not_eq_true', List.any_eq_false] at hy
    exact hy.1.2 _ hmem (beq_iff_eq.2 heq.symm)

section

variable (hl : l.Standard) (hloop : loop ∈ l.loops.loops)
include hl hloop

theorem forall_inside {P : NaturalLoop → Prop}
    (h : ∀ other ∈ l.loops.loops, l.scopeOf other ∈ scope.enclosing → P other) (hown : P loop)
    (stops : List BlockId) : ∀ other ∈ l.loops.loops,
      l.scopeOf other ∈ (l.inside scope loop stops).enclosing → P other := by
  intro other hother hmem
  rcases List.mem_cons.1 hmem with heq | hmem
  · rwa [LoopForest.eq_of_header_eq (hl.mem_loops hother) (hl.mem_loops hloop)
      (congrArg LoopScope.header heq)]
  · exact h other hother hmem

theorem Stays.inside (h : l.Stays scope b) (hb : b ∈ loop.body) (stops : List BlockId) :
    l.Stays (l.inside scope loop stops) b :=
  forall_inside hl hloop h (fun _ _ => hb) stops

theorem Advances.inside (h : l.Advances scope t) (hkind : (l.formOf loop).kind ≠ .postTest)
    (stops : List BlockId) : l.Advances (l.inside scope loop stops) t :=
  forall_inside hl hloop h (fun hpost => absurd hpost hkind) stops

theorem Spares.inside (h : l.Spares scope s s')
    (hown : ∀ x, l.TestedAt loop x → x ∈ s.placed ∨ x ∉ s'.placed) (stops : List BlockId) :
    l.Spares (l.inside scope loop stops) s s' :=
  forall_inside hl hloop h hown stops

end

theorem Sunk.inside (h : l.Sunk scope.enclosing) (hb : l.Stays scope loop.header)
    (stops : List BlockId) : l.Sunk (l.inside scope loop stops).enclosing := by
  refine List.pairwise_cons.2 ⟨fun c hc outer houter heq x hx => ?_, h⟩
  exact hb outer houter (heq ▸ hc) x hx

/-! ## Jumps -/

/-- The loops around a node are the ones around its position: they have labels if they are named. -/
def Fits (l : Layout) (labelled : BlockSet) (scopes : List LoopScope) (around : List LoopContext) :
    Prop :=
  List.Forall₂ (fun c k => (c.header ∈ labelled → k.label = some c.label) ∧
    ∃ loop ∈ l.loops.loops, c = l.scopeOf loop ∧ k.kind = (l.formOf loop).kind) scopes around

theorem Fits.mono {labelled fewer : BlockSet} {scopes : List LoopScope} {around : List LoopContext}
    (h : l.Fits labelled scopes around) (hsub : ∀ b ∈ fewer, b ∈ labelled) :
    l.Fits fewer scopes around :=
  List.Forall₂.imp (fun _ _ hfit => ⟨fun hc => hfit.1 (hsub _ hc), hfit.2⟩) h

theorem exists_split_forall₂ {α β : Type} {r : α → β → Prop} {before after : List α} {a : α}
    {bs : List β} (h : List.Forall₂ r (before ++ a :: after) bs) :
    ∃ front b back, bs = front ++ b :: back ∧ List.Forall₂ r before front ∧ r a b := by
  induction before generalizing bs with
  | nil =>
    cases h with
    | cons hab hrest => exact ⟨[], _, _, rfl, .nil, hab⟩
  | cons c before ih =>
    cases h with
    | cons hcb hrest =>
      obtain ⟨front, b, back, rfl, hfront, hab⟩ := ih hrest
      exact ⟨_ :: front, b, back, rfl, .cons hcb hfront, hab⟩

theorem exists_of_mem_forall₂ {α β : Type} {r : α → β → Prop} {as : List α} {bs : List β} {b : β}
    (h : List.Forall₂ r as bs) (hb : b ∈ bs) : ∃ a ∈ as, r a b := by
  induction h with
  | nil => cases hb
  | @cons a c as bs hac _ ih =>
    rcases List.mem_cons.1 hb with rfl | hb
    · exact ⟨a, List.mem_cons_self, hac⟩
    · obtain ⟨d, hd, hdb⟩ := ih hb
      exact ⟨d, List.mem_cons_of_mem a hd, hdb⟩

theorem exists_named {label : Option String} {front back : List LoopContext} {k : LoopContext}
    {name : String} (hlabel : label = if front.isEmpty then none else some name)
    (hk : label ≠ none → k.label = some name) :
    ∃ c ∈ front ++ [k], LoopContext.named? label (front ++ k :: back) = some c := by
  cases front with
  | nil =>
    rw [hlabel]
    exact ⟨k, by simp, rfl⟩
  | cons c front =>
    have hsome : label = some name := hlabel
    subst hsome
    have hfind : ((c :: front ++ [k]).find? fun d => d.label == some name).isSome = true := by
      rw [List.find?_isSome]
      exact ⟨k, by simp, by simp [hk (by simp)]⟩
    obtain ⟨d, hd⟩ := Option.isSome_iff_exists.1 hfind
    refine ⟨d, List.mem_of_find?_eq_some hd, ?_⟩
    have happend : c :: front ++ k :: back = (c :: front ++ [k]) ++ back := by simp
    rw [LoopContext.named?, happend, List.find?_append, hd]
    rfl

variable {away : BlockId → Prop} {around : List LoopContext} {labelled : BlockSet}

def surroundings (l : Layout) (away : BlockId → Prop) : Surroundings where
  graph := l.graph
  runs := l.IsReachable
  away := away

/-- An edge stays in the tested loops and goes on in them, or it leaves the routine for a
known place. -/
def Leads (l : Layout) (away : BlockId → Prop) (scope : Scope) (t : BlockId) : Prop :=
  (t ∈ l.routine.blocks → l.Stays scope t ∧ l.Advances scope t) ∧ (t ∉ l.routine.blocks → away t)

theorem wellFormed_jump (hl : l.Standard) (hscope : l.Encloses scope.enclosing)
    (hleads : l.Leads away scope t) {node : ControlNode} (hview : (l.view scope t).1 = .jump node)
    (hlabelled : ∀ header, (l.view scope t).2 = some header → header ∈ labelled)
    (hfits : l.Fits labelled scope.enclosing around) :
    (l.surroundings away).WellFormed around node := by
  rcases jump_of_view hview with ⟨hout, rfl⟩ | ⟨hin, header, hjump, hname⟩
  · exact hleads.2 hout
  · obtain ⟨before, c, after, hsplit, rfl, hnode⟩ := jumpTo?_eq_some hjump
    have hmem : ∀ d ∈ before ++ [c], d ∈ scope.enclosing := by
      intro d hd
      rw [hsplit]
      have : d ∈ before ++ [c] ++ after := List.mem_append_left _ hd
      simpa using this
    rw [hsplit] at hfits
    obtain ⟨front, k, back, rfl, hfront, hk⟩ := exists_split_forall₂ hfits
    have hempty : front.isEmpty = before.isEmpty := by
      cases hfront <;> rfl
    -- Whichever loop the label finds is not farther out than the one that is meant.
    have hfind : ∀ label : Option String,
        label = (if false || !before.isEmpty then some c.label else none) →
        (label ≠ none → (l.view scope t).2 = some c.header) →
        ∃ d ∈ front ++ [k], LoopContext.named? label (front ++ k :: back) = some d := by
      intro label hlabel hnamed
      have hname : label = if front.isEmpty then none else some c.label := by
        rw [hlabel, hempty]
        cases before.isEmpty <;> rfl
      exact exists_named hname fun hne => hk.1 (hlabelled _ (hnamed hne))
    -- Of each of these loops it is known what it is in the graph.
    have hscopes : ∀ d ∈ front ++ [k], ∃ loop ∈ l.loops.loops, l.scopeOf loop ∈ before ++ [c] ∧
        d.kind = (l.formOf loop).kind := by
      intro d hd
      rcases List.mem_append.1 hd with hd | hd
      · obtain ⟨e, he, -, loop, hloop, rfl, hkind⟩ := exists_of_mem_forall₂ hfront hd
        exact ⟨loop, hloop, List.mem_append_left _ he, hkind⟩
      · obtain ⟨-, loop, hloop, rfl, hkind⟩ := hk
        rw [List.mem_singleton.1 hd]
        exact ⟨loop, hloop, by simp, hkind⟩
    have hwithin : ∀ d ∈ before, l.Within d c := by
      intro d hd
      have hpair := hscope.within
      rw [hsplit] at hpair
      exact (List.pairwise_append.1 hpair).2.2 _ hd _ List.mem_cons_self
    have hstays := hleads.1 hin
    rcases hnode with ⟨rfl, hto⟩ | ⟨rfl, hto⟩
    · obtain ⟨d, hd, hfound⟩ :=
        hfind _ rfl fun hne => hname (by simp) fun h => hne (by simpa using h)
      refine ⟨d, hfound, fun hpost => ?_⟩
      obtain ⟨loop, hloop, he, hkind⟩ := hscopes d hd
      rw [hpost] at hkind
      have htested : (l.formOf loop).kind.isTested = true := by rw [← hkind]; rfl
      obtain ⟨x, hx⟩ := exists_testedAt htested
      -- The target is the header of the loop that is meant, which is in no loop inside it.
      rcases List.mem_append.1 he with hbefore | he
      · obtain ⟨outer, houter, rfl⟩ := hscope.loops c (hmem c (by simp))
        refine (hwithin _ hbefore).header_not_mem hl hloop ?_
        rw [show outer.header = t from hto]
        exact hstays.1 loop hloop (hmem _ (List.mem_append_left _ hbefore)) x hx
      · have hscopeOf := List.mem_singleton.1 he
        refine hstays.2 loop hloop (hmem _ (by rw [hscopeOf]; simp)) hkind.symm ?_
        rw [← hto, ← hscopeOf]
        rfl
    · obtain ⟨d, hd, hfound⟩ :=
        hfind _ rfl fun hne => hname (fun h => hne (by simpa using h)) (by simp)
      refine ⟨d, hfound, Bool.eq_false_iff.2 fun htested => ?_⟩
      -- A tested loop up to there would contain the target, which lies behind the loop.
      obtain ⟨loop, hloop, he, hkind⟩ := hscopes d hd
      rw [hkind] at htested
      obtain ⟨x, hx⟩ := exists_testedAt htested
      have hbody := hstays.1 loop hloop (hmem _ he) x hx
      rcases List.mem_append.1 he with hbefore | he
      · obtain ⟨outer, houter, rfl⟩ := hscope.loops c (hmem c (by simp))
        exact (hwithin _ hbefore).follow_not_mem hl hloop houter hto hbody
      · rw [← List.mem_singleton.1 he] at hto
        exact (hl.follow_spec hto).2.1 hbody

/-! ## Trees -/

def Task.Leads (l : Layout) (away : BlockId → Prop) : Task → Prop
  | .path scope start | .first scope start => l.Stays scope start
  | .arm scope target => l.Leads away scope target
  | .branch scope b taken fall =>
    (l.graph.block b).isConditional = true ∧ l.Leads away scope taken ∧ l.Leads away scope fall

/-- What a task gives: well-formed nodes, and an edge to go on along. -/
structure Formed (l : Layout) (away : BlockId → Prop) (task : Task) (nodes : List ControlNode)
    (next : Option BlockId) (s' : Arrangement) : Prop where
  nodes : ∀ around, l.Fits s'.labelled task.position.enclosing around →
    (l.surroundings away).AllWellFormed around nodes
  onto : ∀ n, next = some n → l.Leads away task.position n

theorem Fits.inside (hloop : loop ∈ l.loops.loops)
    (h : l.Fits s.labelled scope.enclosing around) (stops : List BlockId) {form : LoopForm}
    (hform : l.formOf loop = form) : l.Fits s.labelled (l.inside scope loop stops).enclosing
      (⟨l.labelFor loop s, form.kind⟩ :: around) := by
  refine .cons ⟨fun hmem => ?_, loop, hloop, rfl, congrArg LoopForm.kind hform.symm⟩ h
  have hcontains : s.labelled.contains loop.header = true := BlockSet.contains_iff.2 hmem
  show l.labelFor loop s = _
  rw [labelFor, if_pos hcontains]
  rfl

theorem leads_follow (hl : l.Standard) (hloop : loop ∈ l.loops.loops)
    (hnew : ∀ c ∈ scope.enclosing, c.header ≠ loop.header) (h : l.Stays scope loop.header) :
    ∀ n, (l.scopeOf loop).follow = some n → l.Leads away scope n := by
  intro n hn
  refine ⟨fun _ => h.follow hl hloop hnew hn, fun hout => ?_⟩
  exact absurd (hl.mem_blocks (hl.follow_spec hn).1) hout

theorem Formed.withOther {arm : List ControlNode} {next join : Option BlockId} {other : BlockId}
    {sense : Bool} (h : l.Formed away (.arm scope t) arm none s')
    (hb : (l.surroundings away).Tests b)
    (hother : (l.view scope other).1 = .stop ∧ next = none ∨ (l.view scope other).1 = .onward ∧
      next = some other) (hleads : l.Leads away scope other) :
    l.Formed away (.branch scope b taken fall) [.cond (.branch b sense) arm [] join] next s' := by
  refine ⟨fun around hfits => ⟨⟨hb, h.nodes around hfits, trivial⟩, trivial⟩, fun n hn => ?_⟩
  rcases hother with ⟨-, rfl⟩ | ⟨-, rfl⟩
  · cases hn
  · cases hn
    exact hleads

variable (hl : l.Standard)
  (haway : ∀ b t, l.IsReachable b → t ∈ l.graph.successors b → t ∉ l.routine.blocks → away t)

include hl haway

/-- Arranged nodes are well formed. The induction is on the derivation; at every point the position
lies in all tested loops around it, and their tests are placed elsewhere. -/
theorem Arranged.formed {task : Task} {nodes : List ControlNode} {next : Option BlockId}
    (h : l.Arranged task s nodes next s') (hbegins : l.Begins task s)
    (hsunk : l.Sunk task.position.enclosing) (hspares : l.Spares task.position s s')
    (hleads : task.Leads l away) : l.Formed away task nodes next s' := by
  induction h with
  | ends _ ih =>
    have hfirst := ih hbegins.front hsunk hspares hleads
    exact ⟨hfirst.nodes, hfirst.onto⟩
  | goesOn front back ih1 ih2 =>
    have hfirst := ih1 hbegins.front hsunk (hspares.mono (fun _ h => h) back.grows.placed) hleads
    have hrest := ih2 (hbegins.back front (front.filled hl hbegins.front)) hsunk
      (hspares.mono front.grows.placed fun _ h => h) (hfirst.onto _ rfl)
    refine ⟨fun around hfits => ?_, by simp⟩
    exact (hfirst.nodes around (hfits.mono back.grows.labelled)).append (hrest.nodes around hfits)
  | onward view path ih =>
    have hpath :=
      ih (hbegins.path (.inl view) _) hsunk hspares (hleads.1 (enters_of_view (.inl view)).1).1
    exact ⟨hpath.nodes, by simp⟩
  | exit view path ih =>
    have hpath :=
      ih (hbegins.path (.inr view) _) hsunk hspares (hleads.1 (enters_of_view (.inr view)).1).1
    exact ⟨hpath.nodes, by simp⟩
  | stop view => exact ⟨fun _ _ => trivial, by simp⟩
  | jump view =>
    refine ⟨fun around hfits => ?_, by simp⟩
    refine Surroundings.allWellFormed_singleton.2 ?_
    exact wellFormed_jump hl hbegins.encloses hleads view
      (fun _ hh => Arrangement.mem_labelled_look hh) hfits
  | plain _ fresh single =>
    refine ⟨fun _ _ => ⟨hbegins.ready.1, trivial⟩, fun n hn => ?_⟩
    have hedge := List.mem_of_mem_head? hn
    exact ⟨fun _ => Stays.edge hl hleads hspares fresh (by simp) hedge,
      haway _ n hbegins.ready.1 hedge⟩
  | @chooses scope start taken fall s nodes next s' _ fresh exits branch ih =>
    have hplaced : start ∈ s'.placed := branch.grows.placed _ (by simp)
    have hexit : ∀ t, t = taken ∨ t = fall → l.Leads away scope t := fun t ht =>
      have hedge := (mem_successors_of_chooses exits).2 ht
      ⟨fun _ => Stays.edge hl hleads hspares fresh hplaced hedge, haway _ t hbegins.ready.1 hedge⟩
    have hbranch :=
      ih (hbegins.branch exits) hsunk (hspares.mono (s.grows_put start).placed fun _ h => h)
      ⟨exits.2.2.2, hexit _ (.inl rfl), hexit _ (.inr rfl)⟩
    exact ⟨fun around hfits => ⟨hbegins.ready.1, hbranch.nodes around hfits⟩, hbranch.onto⟩
  | @infinite scope loop s body s' mem new form path ih =>
    have hpath :=
      ih (hbegins.inside hl mem new (path.fresh rfl).1 [] _) (Sunk.inside hsunk hleads [])
      (Spares.inside hl mem hspares (fun x hx => by
        rcases hx with hx | ⟨-, entry, hx⟩ <;> rw [form] at hx <;> cases hx) [])
      (Stays.inside hl mem hleads (hl.header_mem_body mem) [])
    refine ⟨fun around hfits => ⟨⟨hbegins.ready.1, rfl, ?_⟩, trivial⟩,
      leads_follow hl mem new hleads⟩
    exact (hpath.nodes _ (hfits.inside mem [] form)).withoutFinalContinue
  | @preTest scope loop entry s body s' mem new form fresh arm ih =>
    obtain ⟨f, -, -, hcond, hlength, hcode, hentry, hin⟩ := loopForm_eq_preTest form
    have hedge := Stays.edge hl hleads hspares fresh (arm.grows.placed _ (by simp)) hentry
    have harm := ih (hbegins.preTest hl mem new fresh form _) (Sunk.inside hsunk hleads [])
      (Spares.inside hl mem (hspares.mono (s.grows_put loop.header).placed fun _ h => h)
        (fun x hx => by
        rcases hx with hx | ⟨rfl, -⟩
        · rw [form] at hx
          cases hx
        · exact .inl (Arrangement.mem_placed_put.2 (.inl rfl))) [])
      ⟨fun _ => ⟨hedge.1.inside hl mem hin [], hedge.2.inside hl mem (by rw [form]; nofun) []⟩,
        haway _ entry hbegins.ready.1 hentry⟩
    refine ⟨fun around hfits =>
      ⟨⟨hbegins.ready.1, ⟨_, rfl, ⟨hbegins.ready.1, hcond⟩, ?_, hcode⟩, ?_⟩, trivial⟩,
      leads_follow hl mem new hleads⟩
    · intro hnil
      have hlength' : ([] : List BlockId).length = 2 := hnil ▸ hlength
      cases hlength'
    · exact (harm.nodes _ (hfits.inside mem [] form)).withoutFinalContinue
  | @postTest scope loop latch s before s' mem new form apart path fresh ih =>
    obtain ⟨f, hf, hexits, -, hcond, -⟩ := loopForm_eq_postTest form
    have hlatch := (mem_exitEdges.1 (hexits ▸ List.mem_singleton_self (latch, f))).1
    have hreach : l.IsReachable latch := (hl.dom_of_mem_body mem hlatch).1
    have hpath :=
      ih (hbegins.inside hl mem new (path.fresh rfl).1 [latch] _) (Sunk.inside hsunk hleads [latch])
      (Spares.inside hl mem (hspares.mono (fun _ h => h) (s'.grows_put latch).placed)
        (fun x hx => by
        rcases hx with hx | ⟨-, entry, hx⟩ <;> rw [form] at hx <;> cases hx
        exact .inr fresh) [latch])
      (Stays.inside hl mem hleads (hl.header_mem_body mem) [latch])
    refine ⟨fun around hfits => ⟨⟨hbegins.ready.1, ⟨_, rfl, hreach, hcond⟩, ?_⟩, trivial⟩,
      leads_follow hl mem new hleads⟩
    have hinside : l.Fits s'.labelled (l.inside scope loop [latch]).enclosing
        (⟨l.labelFor loop s', .postTest⟩ :: around) := Fits.inside (s := s') mem hfits [latch] form
    exact (hpath.nodes _ hinside).append ⟨hreach, trivial⟩
  | @selfLoop scope loop s mem new form fresh =>
    obtain ⟨f, -, -, -, hcond, -⟩ := loopForm_eq_postTest form
    have hreach := hbegins.ready.1
    exact ⟨fun around hfits => ⟨⟨hreach, ⟨_, rfl, hreach, hcond⟩, hreach, trivial⟩, trivial⟩,
      leads_follow hl mem new hleads⟩
  | @meets scope b taken fall s join takenArm s1 fallArm s' node takenView fallView join_eq takenRun
      fallRun node_eq ih1 ih2 =>
    obtain ⟨hcond, htaken, hfall⟩ := hleads
    have hfilled := takenRun.filled hl (hbegins.arm hl (.inl rfl) _)
    have htakenArm :=
      ih1 (hbegins.arm hl (.inl rfl) _) hsunk (hspares.mono (fun _ h => h) fallRun.grows.placed)
      htaken
    have hfallArm := ih2 (hbegins.later hl (.inr rfl) takenRun.grows.placed hfilled.closed _) hsunk
      (hspares.mono takenRun.grows.placed fun _ h => h) hfall
    obtain ⟨⟨hb, hreach, hexit, hexit'⟩, -⟩ := hbegins.ready
    refine ⟨fun around hfits => ⟨?_, trivial⟩, fun n hn => ?_⟩
    · have ht := htakenArm.nodes around (hfits.mono fallRun.grows.labelled)
      have hf := hfallArm.nodes around hfits
      rcases node_eq with rfl | rfl
      · exact ⟨⟨hreach, hcond⟩, hf, ht⟩
      · exact ⟨⟨hreach, hcond⟩, ht, hf⟩
    · have hin1 := (enters_of_view (.inl takenView)).1
      have hin2 := (enters_of_view (.inl fallView)).1
      refine ⟨fun _ => Stays.join hl hbegins.encloses hsunk (htaken.1 hin1) (hfall.1 hin2)
        (join_eq.trans hn), fun hout => ?_⟩
      have hreach' := (above_meetingPoint? hl hbegins.closed hb hreach hexit hexit' hin1 hin2
        (join_eq.trans hn)).1
      exact absurd (hl.mem_blocks hreach') hout
  | resumes takenView fallView => exact ⟨fun _ _ => trivial, by simp⟩
  | onTaken other _ run ih =>
    have harm := ih (hbegins.arm hl (.inl rfl) _) hsunk hspares hleads.2.1
    exact harm.withOther ⟨hbegins.ready.1.2.1, hleads.1⟩ other hleads.2.2
  | onFall other _ run ih =>
    have harm := ih (hbegins.arm hl (.inr rfl) _) hsunk hspares hleads.2.2
    exact harm.withOther ⟨hbegins.ready.1.2.1, hleads.1⟩ other hleads.2.1
  | parts takenRun fallRun ih1 ih2 =>
    have hfilled := takenRun.filled hl (hbegins.arm hl (.inl rfl) _)
    have htaken :=
      ih1 (hbegins.arm hl (.inl rfl) _) hsunk (hspares.mono (fun _ h => h) fallRun.grows.placed)
      hleads.2.1
    have hfall := ih2 (hbegins.later hl (.inr rfl) takenRun.grows.placed hfilled.closed _) hsunk
      (hspares.mono takenRun.grows.placed fun _ h => h) hleads.2.2
    refine ⟨fun around hfits => ⟨⟨⟨hbegins.ready.1.2.1, hleads.1⟩, ?_, ?_⟩, trivial⟩, by simp⟩
    · exact htaken.nodes around (hfits.mono fallRun.grows.labelled)
    · exact hfall.nodes around hfits

theorem Standard.wellFormed_tree (h : l.tree.1.structured = true) :
    (l.surroundings away).AllWellFormed [] l.tree.1.nodes := by
  have hrun := l.derives_sequence l.depth _ _ _ _ _ (yields_of_structured h)
  have hformed := hrun.formed hl haway l.begins_entry .nil
    (fun loop _ hmem => absurd hmem List.not_mem_nil)
    (fun loop _ hmem => absurd hmem List.not_mem_nil)
  exact hformed.nodes [] .nil

end Layout

end Lift6502
