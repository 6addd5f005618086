import Lift6502.Flow.Build
import Lift6502.Proofs.Flow.Graph
import Lift6502.Proofs.Listing.Lines

/-!
# Offsets of a program that was read

Every line and every slot starts where the one before it ends, no label is defined twice, and the
labels of a slot stand for its offset.
-/

namespace Lift6502

variable {start stop : UInt16} {lines : List Line} {offset : UInt16} {label : String}
  {waiting : List String} {others : List Line} {m : Nat} {slot : Slot}

def Line.extent (line : Line) :
    UInt16 × Nat × Option (String × UInt16) × Option (String × UInt16) :=
  (line.offset, line.byteCount, line.labelOffset?, line.constant?)

theorem Spans.of_map_extent (h : Spans start lines stop)
    (heq : others.map Line.extent = lines.map Line.extent) : Spans start others stop := by
  induction lines generalizing start others with
  | nil =>
    rw [List.map_nil, List.map_eq_nil_iff] at heq
    rw [heq]
    exact h
  | cons line rest ih =>
    obtain ⟨other, others, rfl, hline, hrest⟩ := List.map_eq_cons_iff.1 heq
    have hoffset : other.offset = line.offset := congrArg (·.1) hline
    have hsize : other.size = line.size := by
      rw [Line.size_eq_ofNat, Line.size_eq_ofNat]
      exact congrArg (fun x => UInt16.ofNat x.2.1) hline
    refine ⟨hoffset.trans h.1, ?_⟩
    rw [hsize]
    exact ih h.2 hrest

def labelsOf (lines : List Line) : List (String × UInt16) := lines.filterMap Line.labelOffset?

theorem labelsOf_of_map_extent
    (heq : others.map Line.extent = lines.map Line.extent) : labelsOf others = labelsOf lines := by
  have h := congrArg (List.filterMap (·.2.2.1)) heq
  rw [List.filterMap_map, List.filterMap_map] at h
  exact h

/-- A program whose lines lie one behind the other and whose labels are all different. -/
structure Program.WellPlaced (p : Program) : Prop where
  spans : ∃ stop, Spans 0 p.lines stop
  labels : ((labelsOf p.lines).map (·.1)).Nodup

namespace Listing

namespace Reader

variable {r r' : Reader} {p q : Program} {w : PendingWord} {number : Nat} {α : Type}

/-- What was read lies one line behind the other, and the known labels are those of the lines. -/
structure WellPlaced (r : Reader) : Prop where
  spans : Spans 0 r.lines.toList r.offset
  labels : ((labelsOf r.lines.toList).map (·.1)).Nodup
  known : ∀ x ∈ (labelsOf r.lines.toList).map (·.1), x ∈ r.labels

theorem label_of_labelOffset? {line : Line} {x : String × UInt16} (h : line.labelOffset? = some x) :
    line.label = some x.1 ∧ line.offset = x.2 := by
  unfold Line.labelOffset? at h
  split at h
  · cases h
  · next hlabel _ =>
    cases h
    exact ⟨hlabel, rfl⟩
  · cases h

theorem map_labelsOf_draft (item : Item) (offset : UInt16) (zeros : Nat) :
    (labelsOf (item.draft offset zeros)).map (·.1) = item.label?.toList := by
  cases item with
  | blank | constant => rfl
  | empty label | bytes label | words label | code label => cases label <;> rfl
  | origin label address =>
    show (labelsOf (Item.padding offset zeros ++ Item.marker label _)).map (·.1) = _
    by_cases hzero : zeros = 0
    · rw [Item.padding, if_pos hzero]
      cases label <;> rfl
    · rw [Item.padding, if_neg hzero]
      cases label <;> rfl

theorem WellPlaced.line {text : List Char} (h : WellPlaced r)
    (hr : r.line number text = .ok r') : WellPlaced r' := by
  obtain ⟨item, zeros, -, hnew, hadds⟩ := line_adds hr
  have hnames : (labelsOf r'.lines.toList).map (·.1) =
      (labelsOf r.lines.toList).map (·.1) ++ item.label?.toList := by
    rw [hadds.lines, labelsOf, List.filterMap_append, List.map_append, ← labelsOf, ← labelsOf,
      map_labelsOf_draft]
  refine ⟨?_, ?_, ?_⟩
  · rw [hadds.lines]
    exact h.spans.append hadds.spans
  · rw [hnames]
    refine List.nodup_append.2 ⟨h.labels, ?_, ?_⟩
    · cases item.label? <;> simp
    · rintro x hx y hy rfl
      exact hnew x (Option.mem_toList.1 hy) (h.known x hx)
  · intro x hx
    rw [hadds.labels]
    rw [hnames] at hx
    rcases List.mem_append.1 hx with hx | hx
    · exact List.mem_append_right _ (h.known x hx)
    · exact List.mem_append_left _ hx

/-! ## The whole listing -/

theorem foldlM_invariant {ε σ : Type} {f : σ → α → Except ε σ} {P : σ → Prop}
    (hstep : ∀ s a s', P s → f s a = .ok s' → P s') {l : List α} {s s' : σ} (hs : P s)
    (h : l.foldlM f s = .ok s') : P s' := by
  induction l generalizing s with
  | nil =>
    cases h
    exact hs
  | cons a rest ih =>
    rw [List.foldlM_cons] at h
    obtain ⟨s1, hfirst, hrest⟩ := bind_eq_ok h
    exact ih (hstep s a s1 hs hfirst) hrest

theorem eq_ok_of_atLine {x : Except ListingFault α} {a : α}
    (h : atLine number x = .ok a) : x = .ok a := by
  cases x with
  | error e => cases h
  | ok b =>
    cases h
    rfl

theorem wellPlaced_start (constants : Constants) : WellPlaced { constants } :=
  ⟨rfl, List.nodup_nil, fun _ hx => absurd hx List.not_mem_nil⟩

theorem wellPlaced_readLines {constants : Constants} {lines : List (Nat × List Char)}
    (h : readLines constants lines = .ok r) : WellPlaced r :=
  foldlM_invariant (P := WellPlaced) (fun _ _ _ hs hline => hs.line (eq_ok_of_atLine hline))
    (wellPlaced_start constants) h

theorem map_extent_patch? {line position : Nat} {byte : UInt8}
    (h : p.patch? line position byte = some q) :
    q.lines.map Line.extent = p.lines.map Line.extent := by
  unfold Program.patch? at h
  split at h
  · next label offset bytes hline =>
    split at h
    · cases h
      rw [List.map_set]
      refine List.ext_getElem? fun i => ?_
      rw [List.getElem?_set, List.getElem?_map]
      split
      · next hi =>
        subst hi
        split
        · rw [hline]
          cases label <;> simp [Line.extent, Line.byteCount, Line.labelOffset?, Line.constant?]
        · next hlt =>
          rw [List.getElem?_eq_none (by simpa using hlt)]
          rfl
      · rfl
    · cases h
  · cases h

theorem map_extent_getD_patch? (p : Program) (line position : Nat) (byte : UInt8) :
    ((p.patch? line position byte).getD p).lines.map Line.extent = p.lines.map Line.extent := by
  cases h : p.patch? line position byte with
  | none => rfl
  | some q => exact map_extent_patch? h

theorem map_extent_fill (h : fill p w = .ok q) :
    q.lines.map Line.extent = p.lines.map Line.extent := by
  unfold fill at h
  split at h
  · cases h
  · cases h
    rw [map_extent_getD_patch?, map_extent_getD_patch?]

theorem origin_getD_patch? (p : Program) (line position : Nat) (byte : UInt8) :
    ((p.patch? line position byte).getD p).origin = p.origin := by
  unfold Program.patch?
  split
  · split <;> rfl
  · rfl

theorem origin_fill (h : fill p w = .ok q) : q.origin = p.origin := by
  unfold fill at h
  split at h
  · cases h
  · cases h
    rw [origin_getD_patch?, origin_getD_patch?]

theorem map_extent_of_fill {words : List PendingWord} (h : words.foldlM fill p = .ok q) :
    q.origin = p.origin ∧ q.lines.map Line.extent = p.lines.map Line.extent := by
  refine foldlM_invariant (P := fun s : Program =>
    s.origin = p.origin ∧ s.lines.map Line.extent = p.lines.map Line.extent) ?_ ⟨rfl, rfl⟩ h
  rintro s w s' ⟨horigin, hextent⟩ hfill
  exact ⟨(origin_fill hfill).trans horigin, (map_extent_fill hfill).trans hextent⟩

end Reader

theorem wellPlaced_read {source : String} {p : Program} (h : read source = .ok p) :
    p.WellPlaced := by
  unfold read at h
  simp only at h
  obtain ⟨constants, -, h⟩ := Reader.bind_eq_ok h
  obtain ⟨r, hr, h⟩ := Reader.bind_eq_ok h
  have hplaced := Reader.wellPlaced_readLines hr
  have hextent := (Reader.map_extent_of_fill h).2
  refine ⟨⟨r.offset, hplaced.spans.of_map_extent hextent⟩, ?_⟩
  rw [labelsOf_of_map_extent hextent]
  exact hplaced.labels

end Listing

def Slot.size (slot : Slot) : UInt16 :=
  match slot.item with
  | .code i => UInt16.ofNat (i.size?.getD 0)
  | .data bytes => UInt16.ofNat bytes.length
  | .finish => 0

def SlotsFrom : UInt16 → List Slot → Prop
  | _, [] => True
  | start, slot :: rest => slot.offset = start ∧ SlotsFrom (start + slot.size) rest

theorem slotsFrom_slotsOf (h : Spans start lines stop) (hoffset : waiting ≠ [] → offset = start) :
    SlotsFrom start (slotsOf waiting offset lines) := by
  induction lines generalizing start offset waiting with
  | nil =>
    rw [slotsOf]
    split
    · trivial
    · next hwaiting => exact ⟨hoffset (by simpa using hwaiting), trivial⟩
  | cons line rest ih =>
    obtain ⟨hline, hrest⟩ := h
    rw [slotsOf]
    split
    · next i hkind =>
      refine ⟨hline, ih ?_ fun hnil => absurd rfl hnil⟩
      rw [Line.size, hkind] at hrest
      exact hrest
    · next bytes hkind =>
      refine ⟨hline, ih ?_ fun hnil => absurd rfl hnil⟩
      rw [Line.size, hkind] at hrest
      exact hrest
    · next hkind =>
      rw [Line.size, hkind, UInt16.add_zero] at hrest
      exact ih hrest fun _ => hline
    · next hkind =>
      rw [Line.size, hkind, UInt16.add_zero] at hrest
      exact ih hrest fun _ => hline

theorem SlotsFrom.next {slots : List Slot} (h : SlotsFrom start slots) {next : Slot}
    (hslot : slots[m]? = some slot) (hnext : slots[m + 1]? = some next) :
    next.offset = slot.offset + slot.size := by
  induction slots generalizing start m with
  | nil => cases hslot
  | cons first rest ih =>
    cases m with
    | zero =>
      rw [List.getElem?_cons_zero] at hslot
      cases hslot
      cases rest with
      | nil => cases hnext
      | cons second rest =>
        rw [List.getElem?_cons_succ, List.getElem?_cons_zero] at hnext
        cases hnext
        rw [h.2.1, h.1]
    | succ m =>
      rw [List.getElem?_cons_succ] at hslot hnext
      exact ih h.2 hslot hnext

theorem mem_labelsOf_of_slot (h : Spans start lines stop)
    (hslot : slot ∈ slotsOf waiting offset lines) (hoffset : waiting ≠ [] → offset = start)
    (hlabel : label ∈ slot.labels) :
    (label ∈ waiting ∧ slot.offset = start) ∨ (label, slot.offset) ∈ labelsOf lines := by
  induction lines generalizing start offset waiting with
  | nil =>
    rw [slotsOf] at hslot
    split at hslot
    · exact absurd hslot List.not_mem_nil
    · next hwaiting =>
      rw [List.mem_singleton.1 hslot] at hlabel ⊢
      exact .inl ⟨hlabel, hoffset (by simpa using hwaiting)⟩
  | cons line rest ih =>
    obtain ⟨hline, hrest⟩ := h
    -- A label that was added on this line stands for its offset.
    have hadded : ∀ x, x ∈ waiting ++ (line.labelOffset?.map (·.1)).toList →
        x ∈ waiting ∨ (x, start) ∈ labelsOf (line :: rest) := by
      intro x hx
      rcases List.mem_append.1 hx with hx | hx
      · exact .inl hx
      · obtain ⟨y, hy, rfl⟩ := Option.map_eq_some_iff.1 (Option.mem_toList.1 hx)
        have hstart := (Listing.Reader.label_of_labelOffset? hy).2
        refine .inr (List.mem_filterMap.2 ⟨line, List.mem_cons_self, ?_⟩)
        rw [hy, ← hline, hstart]
    have hlater : ∀ x, x ∈ labelsOf rest → x ∈ labelsOf (line :: rest) := by
      intro x hx
      obtain ⟨l, hl, hx⟩ := List.mem_filterMap.1 hx
      exact List.mem_filterMap.2 ⟨l, List.mem_cons_of_mem _ hl, hx⟩
    -- The slot of this line, or a later one.
    have hhere : ∀ item, slot = ⟨waiting ++ (line.labelOffset?.map (·.1)).toList,
        line.offset, item⟩ →
        (label ∈ waiting ∧ slot.offset = start) ∨
        (label, slot.offset) ∈ labelsOf (line :: rest) := by
      rintro item rfl
      simp only [hline] at hlabel ⊢
      exact (hadded label hlabel).imp_left fun hw => ⟨hw, trivial⟩
    have hthere : slot ∈ slotsOf [] line.offset rest →
        (label ∈ waiting ∧ slot.offset = start) ∨
        (label, slot.offset) ∈ labelsOf (line :: rest) := by
      intro hslot
      rcases ih hrest hslot fun hnil => absurd rfl hnil with ⟨hmem, -⟩ | hmem
      · exact absurd hmem List.not_mem_nil
      · exact .inr (hlater _ hmem)
    -- A line without bytes passes its labels on.
    have hpass : line.size = 0 →
        slot ∈ slotsOf (waiting ++ (line.labelOffset?.map (·.1)).toList) line.offset rest →
        (label ∈ waiting ∧ slot.offset = start) ∨
        (label, slot.offset) ∈ labelsOf (line :: rest) := by
      intro hsize hslot
      rw [hsize, UInt16.add_zero] at hrest
      rcases ih hrest hslot fun _ => hline with ⟨hmem, hoff⟩ | hmem
      · rw [hoff]
        exact (hadded label hmem).imp_left fun hw => ⟨hw, rfl⟩
      · exact .inr (hlater _ hmem)
    rw [slotsOf] at hslot
    split at hslot
    · rcases List.mem_cons.1 hslot with heq | hslot
      · exact hhere _ heq
      · exact hthere hslot
    · rcases List.mem_cons.1 hslot with heq | hslot
      · exact hhere _ heq
      · exact hthere hslot
    · next hkind => exact hpass (by rw [Line.size, hkind]) hslot
    · next hkind => exact hpass (by rw [Line.size, hkind]) hslot

namespace Program.WellPlaced

variable {p : Program}

theorem slots_next (h : p.WellPlaced) {next : Slot} (hslot : p.slots[m]? = some slot)
    (hnext : p.slots[m + 1]? = some next) : next.offset = slot.offset + slot.size := by
  obtain ⟨stop, hspans⟩ := h.spans
  exact (slotsFrom_slotsOf hspans fun hnil => absurd rfl hnil).next hslot hnext

theorem labelOffset?_of_mem (h : p.WellPlaced)
    (hmem : (label, offset) ∈ labelsOf p.lines) : p.labelOffset? label = some offset := by
  have hnodup : (p.labels.map (·.1)).Nodup := by
    rw [Program.labels, List.map_reverse]
    exact List.nodup_reverse.2 h.labels
  exact (lookup_eq_some_iff hnodup).2 (List.mem_reverse.2 hmem)

theorem labelOffset?_of_slot (h : p.WellPlaced) (hslot : slot ∈ p.slots)
    (hlabel : label ∈ slot.labels) : p.labelOffset? label = some slot.offset := by
  obtain ⟨stop, hspans⟩ := h.spans
  rcases mem_labelsOf_of_slot hspans hslot (fun hnil => absurd rfl hnil) hlabel with
    ⟨hmem, -⟩ | hmem
  · exact absurd hmem List.not_mem_nil
  · exact h.labelOffset?_of_mem hmem

end Program.WellPlaced

end Lift6502
