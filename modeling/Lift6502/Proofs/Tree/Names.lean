import Lift6502.Proofs.Tree.Census

/-!
# What names stand for

Two blocks, two routines or two loops of a routine share a name only where a label looks like a made
name.
-/

namespace Lift6502

open ControlNode

theorem flatMap_labels_slotsOf (waiting : List String) (offset : UInt16) (lines : List Line) :
    (slotsOf waiting offset lines).flatMap (·.labels) = waiting ++ (labelsOf lines).map (·.1) := by
  induction lines generalizing waiting offset with
  | nil =>
    rw [slotsOf]
    split
    · next hnil =>
      rw [List.isEmpty_iff.1 hnil]
      rfl
    · simp [labelsOf]
  | cons line rest ih =>
    have hcons : (labelsOf (line :: rest)).map (·.1) =
        (line.labelOffset?.map (·.1)).toList ++ (labelsOf rest).map (·.1) := by
      unfold labelsOf
      cases h : line.labelOffset? with
      | none => rw [List.filterMap_cons_none h]; rfl
      | some x => rw [List.filterMap_cons_some h]; rfl
    rw [slotsOf, hcons, ← List.append_assoc]
    split
    · rw [List.flatMap_cons, ih, List.nil_append]
    · rw [List.flatMap_cons, ih, List.nil_append]
    · exact ih _ _
    · exact ih _ _

theorem Program.WellPlaced.eq_of_label {p : Program} (hp : p.WellPlaced) {m n : Nat}
    {slot other : Slot} (hm : p.slots[m]? = some slot) (hn : p.slots[n]? = some other)
    {label : String} (hslot : label ∈ slot.labels) (hother : label ∈ other.labels) : m = n := by
  have hnodup : (p.slots.flatMap (·.labels)).Nodup := by
    rw [Program.slots, flatMap_labels_slotsOf]
    exact hp.labels
  have hdisjoint := List.pairwise_iff_getElem.1 (List.nodup_flatMap.1 hnodup).2
  obtain ⟨hmlt, rfl⟩ := List.getElem?_eq_some_iff.1 hm
  obtain ⟨hnlt, rfl⟩ := List.getElem?_eq_some_iff.1 hn
  rcases Nat.lt_trichotomy m n with hlt | heq | hlt
  · exact absurd hother (hdisjoint m n hmlt hnlt hlt hslot)
  · exact heq
  · exact absurd hslot (hdisjoint n m hnlt hmlt hlt hother)

/-! ## Names of blocks -/

namespace Build

variable {p : Program} {b c : BlockId} {label : String}

theorem exists_start_of_label (h : ((ofProgram p).graph.block b).label = some label) :
    ∃ m slot, (m, b) ∈ (read p).starts ∧ p.slots[m]? = some slot ∧ label ∈ slot.labels := by
  have hlabel : ((read p).graph.block b).label = some label := by
    rw [← h]
    exact (congrArg (·.1) ((sameBlocks_ofProgram p).contents b)).symm
  have hb : b < (read p).graph.size := by
    by_contra hb
    rw [Graph.block_eq_default hb] at hlabel
    cases hlabel
  obtain ⟨m, stop, hm, hpiece, -⟩ := exists_piece hb
  obtain ⟨slot, hslot, -, hhead⟩ := hpiece.at_start
  rw [hhead] at hlabel
  exact ⟨m, slot, hm, hslot, List.mem_of_head? hlabel⟩

theorem eq_of_label_eq (hp : p.WellPlaced) (hb : ((ofProgram p).graph.block b).label = some label)
    (hc : ((ofProgram p).graph.block c).label = some label) : b = c := by
  obtain ⟨m, slot, hm, hslot, hmem⟩ := exists_start_of_label hb
  obtain ⟨n, other, hn, hother, hmem'⟩ := exists_start_of_label hc
  cases hp.eq_of_label hslot hother hmem hmem'
  have hlookup := (starts_read p).lookup_iff.2 hm
  rw [(starts_read p).lookup_iff.2 hn] at hlookup
  exact (Option.some.inj hlookup).symm

end Build

namespace Graph

def TakesName (g : Graph) (b c : BlockId) : Prop :=
  (g.block b).label = some ("block_" ++ toString c) ∧ (g.block c).label = none

instance (g : Graph) (b c : BlockId) : Decidable (g.TakesName b c) :=
  inferInstanceAs (Decidable (_ ∧ _))

variable {b c : BlockId}

theorem eq_of_made_name_eq (h : "block_" ++ toString b = "block_" ++ toString c) : b = c := by
  have hdigits : Nat.toDigits 10 b = Nat.toDigits 10 c := by
    rw [← Nat.toList_repr, ← Nat.toList_repr]
    exact congrArg String.toList ((String.append_right_inj _).1 h)
  have hvalue : ∀ n : Nat, Nat.ofDigitChars 10 (Nat.toDigits 10 n) 0 = n := fun n =>
    Nat.ofDigitChars_toDigits (by decide) (by decide)
  rw [← hvalue b, hdigits, hvalue]

/-- Where labels are all different, a label that looks like a made name is the only one
in two places. -/
theorem name_eq_iff {g : Graph}
    (hlabels : ∀ b c label, (g.block b).label = some label → (g.block c).label = some label → b = c)
    (hne : b ≠ c) : g.name b = g.name c ↔ g.TakesName b c ∨ g.TakesName c b := by
  unfold name TakesName
  cases hb : (g.block b).label with
  | none =>
    cases hc : (g.block c).label with
    | none =>
      have hmade : "block_" ++ toString b ≠ "block_" ++ toString c := by
        intro heq
        exact hne (eq_of_made_name_eq heq)
      simpa using hmade
    | some label => simp [eq_comm]
  | some label =>
    cases hc : (g.block c).label with
    | none => simp
    | some other =>
      have hother : label ≠ other := by
        rintro rfl
        exact hne (hlabels b c label hb hc)
      simpa using hother

end Graph

/-! ## Names of routines -/

theorem Routines.name_of_mem {g : Graph} {roots : List BlockId} {r : Routine}
    (hr : r ∈ (Routines.ofGraph g roots).1.all) : r.name = g.name r.entry := by
  have hall : ∀ named ∈ (Routines.ofGraph g roots).1.all.map
      (fun r => decide (r.name = g.name r.entry)), named = true := by
    rw [map_all_ofGraph _ fun _ _ => rfl]
    intro named hnamed
    obtain ⟨q, hq, rfl⟩ := List.mem_map.1 hnamed
    obtain ⟨t, -, rfl⟩ := List.mem_map.1 hq
    exact decide_eq_true rfl
  exact of_decide_eq_true (hall _ (List.mem_map.2 ⟨r, hr, rfl⟩))

/-! ## Names of loops -/

/-- A loop that jumps can name, with its header. -/
def ControlNode.labelledLoop? : ControlNode → Option (BlockId × String)
  | .loop _ header _ _ (some label) _ => some (header, label)
  | _ => none

/-- The header of a loop whose label is not the name of its header. -/
def ControlNode.mislabelled? (g : Graph) : ControlNode → Option BlockId
  | .loop _ header _ _ label _ =>
    if label = none ∨ label = some (g.name header) then none else some header
  | _ => none

namespace Layout

variable {l : Layout} {s s' : Arrangement} {nodes : List ControlNode}

theorem mislabelled?_loop (kind : LoopKind) (loop : NaturalLoop) (c : Option Condition)
    (body : List ControlNode) (s : Arrangement) (follow : Option BlockId) :
    mislabelled? l.graph (.loop kind loop.header c body (l.labelFor loop s) follow) = none := by
  rw [mislabelled?, if_pos]
  unfold labelFor
  split
  · exact .inr rfl
  · exact .inl rfl

theorem listed_mislabelled_jump {scope : Scope} {t : BlockId} {node : ControlNode}
    (hview : (l.view scope t).1 = .jump node) : listed (mislabelled? l.graph) [node] = [] := by
  rcases jump_of_view hview with ⟨-, rfl⟩ | ⟨-, _, hjump, -⟩
  · rfl
  · obtain ⟨_, _, _, -, -, ⟨rfl, -⟩ | ⟨rfl, -⟩⟩ := jumpTo?_eq_some hjump
    · rfl
    · rfl

/-- No loop that is arranged has a label other than the name of its header. The induction is on the
derivation; only the loops themselves have something to show. -/
theorem Arranged.listed_mislabelled {task : Task} {next : Option BlockId}
    (h : l.Arranged task s nodes next s') : listed (mislabelled? l.graph) nodes = [] := by
  induction h with
  | ends _ ih | onward _ _ ih | exit _ _ ih => exact ih
  | goesOn _ _ ih1 ih2 => rw [listed_append, ih1, ih2, List.append_nil]
  | stop | plain | resumes => rfl
  | jump view => exact listed_mislabelled_jump view
  | chooses _ _ _ _ ih => rw [listed_cons, ih]; rfl
  | infinite _ _ _ _ ih | preTest _ _ _ _ _ ih =>
    rw [listed_loop, mislabelled?_loop, listed_withoutFinalContinue rfl, ih]
    rfl
  | postTest _ _ _ _ _ _ ih =>
    rw [listed_loop, mislabelled?_loop, listed_append, ih]
    rfl
  | selfLoop =>
    rw [listed_loop, mislabelled?_loop]
    rfl
  | meets _ _ _ _ _ node_eq ih1 ih2 =>
    rcases node_eq with rfl | rfl
    · rw [listed_cond rfl, listed_append, ih1, ih2, List.append_nil]
    · rw [listed_cond rfl, listed_append, ih1, ih2, List.append_nil]
  | onTaken _ _ _ ih | onFall _ _ _ ih => rw [listed_cond rfl, List.append_nil, ih]
  | parts _ _ ih1 ih2 => rw [listed_cond rfl, listed_append, ih1, ih2, List.append_nil]

theorem sublist_loopHeaders (t : ControlTree) :
    ((t.descendants.filterMap labelledLoop?).map (·.1)).Sublist t.loopHeaders := by
  rw [ControlTree.loopHeaders, listed, List.map_filterMap]
  change List.Sublist _ (t.descendants.filterMap loopHeader?)
  induction t.descendants with
  | nil => exact .slnil
  | cons n rest ih =>
    cases n with
    | loop kind header c body label follow =>
      cases label with
      | none => exact ih.cons header
      | some label => exact ih.cons_cons header
    | block _ | cond _ _ _ _ | goto _ | breakLoop _ | continueLoop _ => exact ih

theorem label_of_structured (h : l.tree.1.structured = true) {x : BlockId × String}
    (hx : x ∈ l.tree.1.descendants.filterMap labelledLoop?) : x.2 = l.graph.name x.1 := by
  have hrun := l.derives_sequence l.depth _ _ _ _ _ (yields_of_structured h)
  have hnone := List.filterMap_eq_nil_iff.1 hrun.listed_mislabelled
  obtain ⟨n, hn, hlabelled⟩ := List.mem_filterMap.1 hx
  have hright := hnone n hn
  unfold labelledLoop? at hlabelled
  split at hlabelled
  · cases hlabelled
    rw [mislabelled?] at hright
    simpa using hright
  · cases hlabelled

end Layout

theorem Layout.Standard.pairwise_labelledLoops {l : Layout} (hl : l.Standard) :
    (l.tree.1.descendants.filterMap labelledLoop?).Pairwise fun x y =>
      x.1 ≠ y.1 ∧ x.2 = l.graph.name x.1 ∧ y.2 = l.graph.name y.1 := by
  have hsublist := Layout.sublist_loopHeaders l.tree.1
  by_cases hstructured : l.tree.1.structured = true
  · have hnodup := hsublist.nodup (hl.files_tree hstructured).2.nodup
    refine (List.pairwise_map.1 hnodup).imp_of_mem fun {x y} hx hy hne => ?_
    exact ⟨hne, label_of_structured hstructured hx, label_of_structured hstructured hy⟩
  · -- There is only one loop.
    rw [Layout.tree_eq_dispatch (Bool.eq_false_iff.2 hstructured)] at hsublist ⊢
    rw [← Layout.dispatchTree, Layout.loopHeaders_dispatchTree] at hsublist
    have hlength := hsublist.length_le
    rw [List.length_map] at hlength
    rw [← Layout.dispatchTree]
    cases hloops : l.dispatchTree.descendants.filterMap labelledLoop? with
    | nil => exact .nil
    | cons x rest =>
      rw [hloops] at hlength
      have hnil : rest = [] := List.length_eq_zero_iff.1 (by simpa using hlength)
      rw [hnil]
      exact List.pairwise_singleton _ x

/-- Names are shared in one way only, by the label of a block and a block without a label whose made
name the label is. So are the names of routines, which are called by them, and the labels of the
loops of a routine, which jumps name; where no label takes the name of a routine, looking the name
up finds the routine. -/
theorem names_shared_iff (source : String) (p : Program) (g : Graph)
    (hread : Listing.read source = .ok p) (hg : (Graph.ofProgram p).1 = .ok g) :
    (∀ b c, b ≠ c → (g.name b = g.name c ↔ g.TakesName b c ∨ g.TakesName c b)) ∧
    ∀ roots,
      ((Routines.ofGraph g roots).1.all.Pairwise fun r q =>
        r.name = q.name ↔ g.TakesName r.entry q.entry ∨ g.TakesName q.entry r.entry) ∧
      ∀ r ∈ (Routines.ofGraph g roots).1.all,
        ((∀ q ∈ (Routines.ofGraph g roots).1.all,
            ¬ g.TakesName q.entry r.entry ∧ ¬ g.TakesName r.entry q.entry) →
          (Routines.ofGraph g roots).1.named? r.name = some r) ∧
        ((Layout.ofRoutine g r).tree.1.descendants.filterMap labelledLoop?).Pairwise fun x y =>
          x.2 = y.2 ↔ g.TakesName x.1 y.1 ∨ g.TakesName y.1 x.1 := by
  have hp := Listing.wellPlaced_read hread
  have hnames : ∀ b c, b ≠ c → (g.name b = g.name c ↔ g.TakesName b c ∨ g.TakesName c b) := by
    cases graph_eq_of_ofProgram hg
    intro b c hne
    exact Graph.name_eq_iff (fun _ _ _ hb hc => Build.eq_of_label_eq hp hb hc) hne
  refine ⟨hnames, fun roots => ?_⟩
  have hentries := List.pairwise_map.1 (Routines.separate_ofGraph g roots).entries
  refine ⟨?_, fun r hr => ⟨fun hfree => ?_, ?_⟩⟩
  · refine hentries.imp_of_mem fun {r q} hr hq hne => ?_
    rw [Routines.name_of_mem hr, Routines.name_of_mem hq]
    exact hnames r.entry q.entry hne
  · cases hfind : (Routines.ofGraph g roots).1.named? r.name with
    | none => exact absurd (decide_eq_true rfl) (List.find?_eq_none.1 hfind r hr)
    | some q =>
      have hq := List.mem_of_find?_eq_some hfind
      have hname : q.name = r.name := by
        rw [Routines.named?] at hfind
        simpa using List.find?_some hfind
      by_contra hne
      have hentry : q.entry ≠ r.entry := by
        intro heq
        have hqr := List.inj_on_of_nodup_map (Routines.separate_ofGraph g roots).entries hq hr heq
        exact hne (congrArg some hqr)
      rw [Routines.name_of_mem hq, Routines.name_of_mem hr] at hname
      rcases (hnames q.entry r.entry hentry).1 hname with htakes | htakes
      · exact (hfree q hq).1 htakes
      · exact (hfree q hq).2 htakes
  · refine (Layout.standard_ofRoutine hg hr).pairwise_labelledLoops.imp fun {x y} hxy => ?_
    obtain ⟨hne, hx, hy⟩ := hxy
    rw [hx, hy]
    exact hnames x.1 y.1 hne

/-- A routine that is called by its address, behind one whose label is the name that is
made for it. -/
def borrowedNameText : String :=
  "  .org $8000\nStart:\n  JSR block_2\n  JSR $800a\n  RTS\nblock_2:\n  INC $20\n  RTS\n  INC $21\n  RTS\n"

def borrowedName : Program :=
  Draft.start 0x8000
    |>.label "Start" |>.line .empty |>.atLabel .jsr "block_2" |>.absolute .jsr 0x800a
      |>.implied .rts
    |>.label "block_2" |>.line .empty |>.zeroPage .inc 0x20 |>.implied .rts |>.zeroPage .inc 0x21
      |>.implied .rts
    |>.program

/-- The label and the made name are the only ones that are the same, and the first routine is found
by its name. -/
theorem names_shared_borrowedName :
    ∃ g r, Listing.read borrowedNameText = .ok borrowedName ∧
      (Graph.ofProgram borrowedName).1 = .ok g ∧ (Routines.ofGraph g [0]).1.all.head? = some r ∧
      g.name 1 = g.name 2 ∧ g.name 0 ≠ g.name 1 ∧ g.name 0 ≠ g.name 2 ∧
      (Routines.ofGraph g [0]).1.named? r.name = some r := by
  have hread : Listing.read borrowedNameText = .ok borrowedName := by decide +kernel
  obtain ⟨hnames, hroutines⟩ := names_shared_iff borrowedNameText borrowedName _ hread rfl
  refine ⟨_, _, hread, rfl, rfl, (hnames 1 2 (by decide)).2 ?_, fun heq => ?_, fun heq => ?_,
    ((hroutines [0]).2 _ List.mem_cons_self).1 ?_⟩
  · decide +kernel
  · exact absurd ((hnames 0 1 (by decide)).1 heq) (by decide +kernel)
  · exact absurd ((hnames 0 2 (by decide)).1 heq) (by decide +kernel)
  · decide +kernel

/-- Two routines have one name, and the second one is not found by it. -/
theorem borrowedName_is_ambiguous :
    ∃ g r q, Listing.read borrowedNameText = .ok borrowedName ∧
      (Graph.ofProgram borrowedName).1 = .ok g ∧ (Routines.ofGraph g [0]).1.all[1]? = some r ∧
      (Routines.ofGraph g [0]).1.all[2]? = some q ∧ r.entry = 1 ∧ q.entry = 2 ∧ r.name = q.name ∧
      (Routines.ofGraph g [0]).1.named? q.name = some r := by
  refine ⟨(Build.ofProgram borrowedName).graph, _, _, ?_, rfl, rfl, rfl, ?_⟩
  · decide +kernel
  · decide +kernel

end Lift6502
