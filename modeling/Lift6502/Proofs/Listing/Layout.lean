import Lift6502.Proofs.Flow.Disassembly

/-!
# Layout of a listing

The image of a listing is what its lines say, one behind the other, and a word has the value of its
expression even if this names a label further down.
-/

namespace Lift6502

theorem bytesOf_append (lines more : List Line) :
    bytesOf (lines ++ more) = bytesOf lines + bytesOf more := by
  rw [bytesOf, List.map_append, List.sum_append, ← bytesOf, ← bytesOf]

theorem bytesOf_of_map_extent {lines others : List Line}
    (h : others.map Line.extent = lines.map Line.extent) : bytesOf others = bytesOf lines := by
  have hcounts := congrArg (List.map (·.2.1)) h
  rw [List.map_map, List.map_map] at hcounts
  exact congrArg List.sum hcounts

namespace Spans

variable {start stop : UInt16} {lines : List Line}

theorem stop_eq (h : Spans start lines stop) : stop = start + UInt16.ofNat (bytesOf lines) := by
  induction lines generalizing start with
  | nil =>
    rw [← show start = stop from h]
    exact (UInt16.add_zero start).symm
  | cons line rest ih =>
    rw [ih h.2, Line.size_eq_ofNat, bytesOf_cons, UInt16.ofNat_add, UInt16.add_assoc]

theorem offset_eq (h : Spans start lines stop) {k : Nat} {line : Line}
    (hline : lines[k]? = some line) :
    line.offset = start + UInt16.ofNat (bytesOf (lines.take k)) := by
  induction lines generalizing start k with
  | nil => cases hline
  | cons first rest ih =>
    cases k with
    | zero =>
      cases hline
      rw [h.1]
      exact (UInt16.add_zero start).symm
    | succ k =>
      rw [ih h.2 hline, Line.size_eq_ofNat, List.take_succ_cons, bytesOf_cons, UInt16.ofNat_add,
        UInt16.add_assoc]

end Spans

/-! ## The image -/

theorem length_pieces {p : Program} {lines : List Line} {pieces : List (List UInt8)}
    (h : lines.mapM p.lineBytes = .ok pieces) (k : Nat) :
    (pieces.take k).flatten.length = bytesOf (lines.take k) := by
  induction lines generalizing pieces k with
  | nil =>
    cases h
    simp [bytesOf]
  | cons line rest ih =>
    rw [List.mapM_cons] at h
    obtain ⟨bytes, hbytes, h⟩ := Listing.Reader.bind_eq_ok h
    obtain ⟨others, hothers, h⟩ := Listing.Reader.bind_eq_ok h
    cases h
    cases k with
    | zero => rfl
    | succ k =>
      rw [List.take_succ_cons, List.take_succ_cons, List.flatten_cons, List.length_append,
        bytesOf_cons, length_of_lineBytes hbytes, ih hothers]

/-- An image that consists of one piece for each line. Every line has the number of bytes before it
as its offset, and a label that is no constant stands for the address of its line. -/
structure Program.Pieces (p : Program) (pieces : List (List UInt8)) (image : List UInt8) :
    Prop where
  lines : p.lines.mapM p.lineBytes = .ok pieces
  image : image = pieces.flatten
  offset : ∀ k line, p.lines[k]? = some line → line.offset.toNat = (pieces.take k).flatten.length
  label : ∀ k line label, p.lines[k]? = some line → line.label = some label →
    p.constant? label = none →
    p.resolve? (.symbol label) = some (p.addressOf (UInt16.ofNat (pieces.take k).flatten.length))

namespace Program.WellPlaced

theorem exists_pieces {p : Program} (h : p.WellPlaced) {image : List UInt8}
    (hfits : p.byteCount ≤ 0xffff) (hassemble : p.assemble = .ok image)
    (hlabels : ∀ line ∈ p.lines, ∀ label, line.label = some label → line.labelOffset? =
      some (label, line.offset)) : ∃ pieces, p.Pieces pieces image := by
  obtain ⟨stop, hspans⟩ := h.spans
  have hfits : bytesOf p.lines ≤ 0xffff := hfits
  obtain ⟨pieces, hpieces, himage⟩ :=
    Lift6502.exists_pieces hspans (by simpa using hfits) rfl hassemble
  have hoffset : ∀ k line, p.lines[k]? = some line →
      line.offset = UInt16.ofNat (pieces.take k).flatten.length := by
    intro k line hline
    rw [hspans.offset_eq hline, length_pieces hpieces, UInt16.zero_add]
  refine ⟨pieces, hpieces, himage, fun k line hline => ?_,
    fun k line label hline hlabel hconstant => ?_⟩
  · have hle : bytesOf (p.lines.take k) ≤ bytesOf p.lines := by
      rw [← List.take_append_drop k p.lines, bytesOf_append, List.take_append_drop]
      exact Nat.le_add_right _ _
    rw [hoffset k line hline, UInt16.toNat_ofNat', length_pieces hpieces]
    omega
  · have hmem := List.mem_of_getElem? hline
    rw [← hoffset k line hline]
    exact resolve?_of_label rfl hconstant
      (h.labelOffset?_of_mem (List.mem_filterMap.2 ⟨line, hmem, hlabels line hmem label hlabel⟩))

end Program.WellPlaced

/-! ## Items -/

namespace Listing

variable {p : Program} {start : Nat} {lines : List Line} {words : List PendingWord}
  {items : List Item}

namespace Item

/-- The lines of an item, if as many bytes stand before them. An origin is the address behind its
zeros, and words have the values of their expressions, the low byte first. -/
inductive Lays (p : Program) (start : Nat) : Item → List Line → Prop where
  | blank : Lays p start .blank []
  | constant (name : String) (value : UInt16) :
      Lays p start (.constant name value) [⟨none, UInt16.ofNat start, .constant name value⟩]
  | empty (label : Option String) :
    Lays p start (.empty label) [⟨label, UInt16.ofNat start, .empty⟩]
  | origin (label : Option String) {address : UInt16} {zeros : Nat}
      (reached : p.addressOf (UInt16.ofNat (start + zeros)) = address) :
      Lays p start (.origin label address)
        (padding (UInt16.ofNat start) zeros ++ marker label (UInt16.ofNat (start + zeros)))
  | bytes (label : Option String) (values : List UInt8) :
      Lays p start (.bytes label values) [⟨label, UInt16.ofNat start, .data values⟩]
  | words (label : Option String) {targets : List Target} {values : List UInt16}
      (known : targets.mapM p.resolve? = some values) :
      Lays p start (.words label targets)
        [⟨label, UInt16.ofNat start, .data (values.flatMap littleEndian)⟩]
  | code (label : Option String) (i : Instruction) :
      Lays p start (.code label i) [⟨label, UInt16.ofNat start, .code i⟩]

end Item

inductive LaidOut (p : Program) : Nat → List Item → List Line → Prop where
  | nil (start : Nat) : LaidOut p start [] []
  | cons {start : Nat} {item : Item} {items : List Item} {here below : List Line}
      (lays : item.Lays p start here) (rest : LaidOut p (start + bytesOf here) items below) :
      LaidOut p start (item :: items) (here ++ below)

theorem Item.Lays.labelOffset? {item : Item} (h : item.Lays p start lines) :
    ∀ line ∈ lines, ∀ label, line.label = some label →
      line.labelOffset? = some (label, line.offset) := by
  intro line hline label hlabel
  cases h with
  | blank => exact absurd hline List.not_mem_nil
  | constant =>
    rw [List.mem_singleton.1 hline] at hlabel
    cases hlabel
  | empty | bytes | words | code =>
    rw [List.mem_singleton.1 hline] at hlabel ⊢
    cases hlabel
    rfl
  | origin =>
    rcases List.mem_append.1 hline with hline | hline
    · unfold Item.padding at hline
      split at hline
      · exact absurd hline List.not_mem_nil
      · rw [List.mem_singleton.1 hline] at hlabel
        cases hlabel
    · unfold Item.marker at hline
      split at hline
      · rw [List.mem_singleton.1 hline] at hlabel ⊢
        cases hlabel
        rfl
      · exact absurd hline List.not_mem_nil

theorem LaidOut.labelOffset? (h : LaidOut p start items lines) :
    ∀ line ∈ lines, ∀ label, line.label = some label →
      line.labelOffset? = some (label, line.offset) := by
  induction h with
  | nil start => exact fun line hline => absurd hline List.not_mem_nil
  | cons lays rest ih =>
    intro line hline
    rcases List.mem_append.1 hline with hline | hline
    · exact lays.labelOffset? line hline
    · exact ih line hline

/-! ## Reading -/

/-- Lines that are laid out one item behind the other, but whose words are still open. They are
counted from the given line on. -/
inductive Drafted (origin : UInt16) :
  Nat → Nat → List Item → List Line → List PendingWord → Prop where
  | nil (line start : Nat) : Drafted origin line start [] [] []
  | cons {line start zeros number : Nat} {item : Item} {items : List Item} {below : List Line}
      {words : List PendingWord}
      (reached : ∀ label address, item = .origin label address →
        origin + UInt16.ofNat (start + zeros) = address)
      (rest : Drafted origin (line + (item.draft (UInt16.ofNat start) zeros).length)
        (start + bytesOf (item.draft (UInt16.ofNat start) zeros)) items below words) :
      Drafted origin line start (item :: items) (item.draft (UInt16.ofNat start) zeros ++ below)
        (item.pending number line ++ words)

namespace Reader

variable {r r' R : Reader} {texts : List (Nat × List Char)} {p q : Program}

theorem WellPlaced.offset_eq (h : r.WellPlaced) :
    r.offset = UInt16.ofNat (bytesOf r.lines.toList) :=
  h.spans.stop_eq.trans (UInt16.zero_add _)

theorem WellPlaced.bytesOf_eq_zero (h : r.WellPlaced) (hfits : bytesOf r.lines.toList ≤ 0xffff)
    (hzero : r.offset = 0) : bytesOf r.lines.toList = 0 := by
  have hnat := congrArg UInt16.toNat (h.offset_eq.symm.trans hzero)
  rw [UInt16.toNat_ofNat'] at hnat
  have hzero : (0 : UInt16).toNat = 0 := rfl
  omega

theorem bytesOf_le_of_read
    (h : texts.foldlM (fun r line => atLine line.1 (r.line line.1 line.2)) r = .ok R) :
    bytesOf r.lines.toList ≤ bytesOf R.lines.toList := by
  refine foldlM_invariant (P := fun s : Reader => bytesOf r.lines.toList ≤ bytesOf s.lines.toList)
    ?_ (Nat.le_refl _) h
  intro s line s' hs hline
  obtain ⟨item, zeros, -, -, hadds⟩ := line_adds (eq_ok_of_atLine hline)
  rw [hadds.lines, bytesOf_append]
  exact Nat.le_trans hs (Nat.le_add_right _ _)

theorem origin_of_read (hr : r.WellPlaced) (hgiven : ¬ (r.origin = none ∧ r.offset = 0))
    (h : texts.foldlM (fun r line => atLine line.1 (r.line line.1 line.2)) r = .ok R)
    (hfits : bytesOf R.lines.toList ≤ 0xffff) : R.origin = r.origin := by
  induction texts generalizing r with
  | nil =>
    cases h
    rfl
  | cons line rest ih =>
    rw [List.foldlM_cons] at h
    obtain ⟨r1, hline, hrest⟩ := bind_eq_ok h
    have hline := eq_ok_of_atLine hline
    have hr1 := hr.line hline
    obtain ⟨item, zeros, -, -, hadds⟩ := line_adds hline
    have horigin : r1.origin = r.origin := by
      cases item with
      | origin label address => exact (hadds.origin.resolve_left fun hfirst => hgiven hfirst.1).2.1
      | blank | constant | empty | bytes | words | code => exact hadds.origin
    -- Bytes that were read stay, and they fit in memory, so the offset does not come back to zero.
    refine (ih hr1 ?_ hrest).trans horigin
    rintro ⟨hnone, hzero⟩
    have hle := bytesOf_le_of_read hrest
    have hbytes := hr1.bytesOf_eq_zero (Nat.le_trans hle hfits) hzero
    have hlines : r1.lines.toList = r.lines.toList ++ item.draft r.offset zeros := hadds.lines
    rw [hlines, bytesOf_append] at hbytes
    refine hgiven ⟨horigin.symm.trans hnone, ?_⟩
    rw [hr.offset_eq, show bytesOf r.lines.toList = 0 by omega]
    rfl

theorem Adds.reached {number zeros : Nat} {item : Item} (hadds : r.Adds number item zeros r')
    (hr : r.WellPlaced) (hfits : bytesOf r.lines.toList ≤ 0xffff)
    (hstays : ¬ (r.origin = none ∧ r.offset = 0) → R.origin = r.origin)
    (hset : ∀ address, r'.origin = some address → R.origin = some address) :
    ∀ label address, item = .origin label address →
      R.origin.getD 0 + UInt16.ofNat (bytesOf r.lines.toList + zeros) = address := by
  rintro label address rfl
  obtain ⟨hfirst, hzeros, horigin⟩ | ⟨hlater, -, hreach⟩ := hadds.origin
  · rw [hset address horigin, hzeros, hr.bytesOf_eq_zero hfits hfirst.2]
    exact UInt16.add_zero address
  · rw [hstays hlater, UInt16.ofNat_add, ← UInt16.add_assoc, ← hr.offset_eq]
    exact hreach

theorem drafted_of_read (hr : r.WellPlaced)
    (h : texts.foldlM (fun r line => atLine line.1 (r.line line.1 line.2)) r = .ok R)
    (hfits : bytesOf R.lines.toList ≤ 0xffff) :
    ∃ items lines words, List.Forall₂ (fun line item => Item.OfText r.constants line.2 item) texts
      items ∧ R.lines.toList = r.lines.toList ++ lines ∧ R.words.toList = r.words.toList ++ words ∧
      Drafted (R.origin.getD 0) r.lines.size (bytesOf r.lines.toList) items lines words := by
  induction texts generalizing r with
  | nil =>
    cases h
    exact ⟨[], [], [], .nil, (List.append_nil _).symm, (List.append_nil _).symm, .nil _ _⟩
  | cons line rest ih =>
    -- The lines are read from the front, but the origin that counts is the one at the end of the
    -- run.
    have hle : bytesOf r.lines.toList ≤ bytesOf R.lines.toList := bytesOf_le_of_read h
    have hstays : ¬ (r.origin = none ∧ r.offset = 0) → R.origin = r.origin := fun hgiven =>
      origin_of_read hr hgiven h hfits
    rw [List.foldlM_cons] at h
    obtain ⟨r1, hline, hrest⟩ := bind_eq_ok h
    have hline := eq_ok_of_atLine hline
    have hr1 := hr.line hline
    obtain ⟨item, zeros, hsays, -, hadds⟩ := line_adds hline
    have hset : ∀ address, r1.origin = some address → R.origin = some address := by
      intro address hsome
      rw [origin_of_read hr1 (by rw [hsome]; rintro ⟨hnone, -⟩; cases hnone) hrest hfits, hsome]
    obtain ⟨items, lines, words, hitems, hlines, hwords, hdrafted⟩ := ih hr1 hrest
    have hadded : r1.lines.toList =
        r.lines.toList ++ item.draft (UInt16.ofNat (bytesOf r.lines.toList)) zeros := by
      rw [← hr.offset_eq]
      exact hadds.lines
    refine ⟨item :: items, item.draft (UInt16.ofNat (bytesOf r.lines.toList)) zeros ++ lines,
      item.pending line.1 r.lines.size ++ words, .cons hsays ?_, ?_, ?_, .cons ?_ ?_⟩
    · rw [show r1.constants = r.constants from hadds.constants] at hitems
      exact hitems
    · rw [hlines, hadded, List.append_assoc]
    · rw [hwords, hadds.words, List.append_assoc]
    · exact hadds.reached ⟨hr.spans, hr.labels, fun x hx => List.mem_append_right _ (hr.known x hx)⟩
        (Nat.le_trans hle hfits) hstays hset
    · have hsize : r1.lines.size =
          r.lines.size + (item.draft (UInt16.ofNat (bytesOf r.lines.toList)) zeros).length := by
        rw [← Array.length_toList, ← Array.length_toList, hadded, List.length_append]
      rw [← hsize, ← bytesOf_append, ← hadded]
      exact hdrafted

/-! ## Words -/

theorem resolve?_of_map_extent (horigin : q.origin = p.origin)
    (h : q.lines.map Line.extent = p.lines.map Line.extent) : q.resolve? = p.resolve? := by
  have hlabels : q.labels = p.labels := congrArg List.reverse (labelsOf_of_map_extent h)
  have hconstants : q.constants = p.constants := by
    have hdefined := congrArg (List.filterMap (·.2.2.2)) h
    rw [List.filterMap_map, List.filterMap_map] at hdefined
    exact congrArg List.reverse hdefined
  have hbase : q.base? = p.base? := by
    funext reference
    cases reference with
    | address value => rfl
    | symbol name =>
      have haddress : q.addressOf = p.addressOf := by
        funext offset
        rw [Program.addressOf, horigin]
        rfl
      unfold Program.base? Program.constant? Program.labelOffset?
      rw [hlabels, hconstants, haddress]
  funext target
  rw [Program.resolve?, hbase]
  rfl

theorem resolve?_of_fill (h : words.foldlM fill p = .ok q) : q.resolve? = p.resolve? :=
  resolve?_of_map_extent (map_extent_of_fill h).1 (map_extent_of_fill h).2

variable {origin offset : UInt16} {before below : List Line} {label : Option String} {q : Program}
  {number : Nat} {targets : List Target}

theorem patch?_data {bytes : List UInt8} {position : Nat} (h : position < bytes.length)
    (byte : UInt8) :
    Program.patch? ⟨origin, before ++ ⟨label, offset, .data bytes⟩ :: below⟩ before.length
      position byte =
      some ⟨origin, before ++ ⟨label, offset, .data (bytes.set position byte)⟩ :: below⟩ := by
  have hline : (before ++ ⟨label, offset, .data bytes⟩ :: below)[before.length]? =
      some ⟨label, offset, .data bytes⟩ := by
    rw [List.getElem?_append_right (Nat.le_refl _), Nat.sub_self]
    rfl
  unfold Program.patch?
  simp only [hline, if_pos h]
  rw [List.set_append_right _ _ (Nat.le_refl _), Nat.sub_self, List.set_cons_zero]

theorem fill_data {done rest : List UInt8} {x y : UInt8} {target : Target}
    (h : fill ⟨origin, before ++ ⟨label, offset, .data (done ++ x :: y :: rest)⟩ :: below⟩
      ⟨number, before.length, done.length, target⟩ = .ok q) : ∃ value,
        q.resolve? target = some value ∧
      q = ⟨origin, before ++ ⟨label, offset, .data (done ++ littleEndian value ++ rest)⟩ ::
        below⟩ := by
  have hsame := resolve?_of_map_extent (origin_fill h) (map_extent_fill h)
  unfold fill at h
  split at h
  · cases h
  · next value hvalue =>
    refine ⟨value, by rw [hsame]; exact hvalue, ?_⟩
    have hfirst : done.length < (done ++ x :: y :: rest).length := by simp
    have hsecond : done.length + 1 < (done ++ value.toUInt8 :: y :: rest).length := by simp
    simp only [patch?_data hfirst, Option.getD_some] at h
    rw [List.set_append_right _ _ (Nat.le_refl _), Nat.sub_self, List.set_cons_zero] at h
    simp only [patch?_data hsecond, Option.getD_some] at h
    rw [List.set_append_right _ _ (Nat.le_add_right _ 1), Nat.add_sub_cancel_left,
      List.set_cons_succ, List.set_cons_zero] at h
    rw [← Except.ok.inj h, littleEndian, List.append_assoc]
    rfl

theorem fill_words {k : Nat} {done : List UInt8} (hdone : done.length = 2 * k)
    (h : (targets.mapIdx fun i target =>
      (⟨number, before.length, 2 * (k + i), target⟩ : PendingWord)).foldlM fill ⟨origin, before ++
      ⟨label, offset, .data (done ++ List.replicate (2 * targets.length) 0)⟩ :: below⟩ = .ok q) :
    ∃ values, targets.mapM q.resolve? = some values ∧
      q = ⟨origin, before ++ ⟨label, offset, .data (done ++ values.flatMap littleEndian)⟩ ::
        below⟩ := by
  -- The bytes in front, `done`, grow by those of one word, and the zeros shrink by as many.
  induction targets generalizing k done with
  | nil =>
    cases h
    exact ⟨[], rfl, rfl⟩
  | cons target rest ih =>
    have hzeros : List.replicate (2 * (rest.length + 1)) (0 : UInt8) =
        0 :: 0 :: List.replicate (2 * rest.length) 0 := rfl
    have hpositions : (fun i target =>
        (⟨number, before.length, 2 * (k + (i + 1)), target⟩ : PendingWord)) =
        fun i target => ⟨number, before.length, 2 * (k + 1 + i), target⟩ := by
      funext i target
      rw [Nat.add_comm i 1, ← Nat.add_assoc]
    rw [List.mapIdx_cons, List.foldlM_cons, List.length_cons, hzeros, Nat.add_zero, ← hdone] at h
    obtain ⟨q1, hfirst, hrest⟩ := bind_eq_ok h
    have hsame := resolve?_of_fill hrest
    obtain ⟨value, hvalue, rfl⟩ := fill_data hfirst
    rw [hpositions] at hrest
    have hnext : (done ++ littleEndian value).length = 2 * (k + 1) := by
      rw [List.length_append, hdone]
      rfl
    obtain ⟨values, hvalues, hq⟩ := ih hnext hrest
    refine ⟨value :: values, ?_, ?_⟩
    · rw [List.mapM_cons, hsame, hvalue, ← hsame, hvalues]
      rfl
    · rw [hq, List.flatMap_cons, List.append_assoc]

theorem fill_line
    (h : (targets.mapIdx fun i target =>
      (⟨number, before.length, 2 * i, target⟩ : PendingWord)).foldlM fill ⟨origin, before ++
      ⟨label, offset, .data (List.replicate (2 * targets.length) 0)⟩ :: below⟩ = .ok q) :
    ∃ values, targets.mapM q.resolve? = some values ∧
      q = ⟨origin, before ++ ⟨label, offset, .data (values.flatMap littleEndian)⟩ :: below⟩ := by
  have hfrom : (targets.mapIdx fun i target =>
      (⟨number, before.length, 2 * (0 + i), target⟩ : PendingWord)).foldlM fill
        ⟨origin, before ++
          ⟨label, offset, .data ([] ++ List.replicate (2 * targets.length) 0)⟩ :: below⟩ =
            .ok q := by
    simp only [Nat.zero_add]
    exact h
  exact fill_words rfl hfrom

end Reader

theorem Drafted.laidOut {origin : UInt16} {line : Nat} {before : List Line}
    {q : Program} (h : Drafted origin line start items lines words) (hline : before.length = line)
    (hfill : words.foldlM Reader.fill ⟨origin, before ++ lines⟩ = .ok q) :
    ∃ laid, q.lines = before ++ laid ∧ LaidOut q start items laid := by
  induction h generalizing before with
  | nil line start =>
    cases hfill
    exact ⟨[], rfl, .nil start⟩
  | @cons line start zeros number item items below words reached rest ih =>
    have horigin : q.origin = origin := (Reader.map_extent_of_fill hfill).1
    rw [List.foldlM_append] at hfill
    obtain ⟨q1, hfirst, hrest⟩ := Reader.bind_eq_ok hfill
    -- Without words of its own, an item stays as it was drafted.
    have hplain : item.pending number line = [] →
        item.Lays q start (item.draft (UInt16.ofNat start) zeros) →
          ∃ laid, q.lines = before ++ laid ∧ LaidOut q start (item :: items) laid := by
      intro hnone hlays
      rw [hnone] at hfirst
      cases hfirst
      rw [← List.append_assoc] at hrest
      obtain ⟨laid, hlines, hlaid⟩ := ih (by rw [List.length_append, hline]) hrest
      exact ⟨_, by rw [hlines, List.append_assoc], .cons hlays hlaid⟩
    cases item with
    | blank => exact hplain rfl .blank
    | constant name value => exact hplain rfl (.constant name value)
    | empty label => exact hplain rfl (.empty label)
    | bytes label values => exact hplain rfl (.bytes label values)
    | code label i => exact hplain rfl (.code label i)
    | origin label address =>
      have hreached : q.addressOf (UInt16.ofNat (start + zeros)) = address := by
        rw [Program.addressOf, horigin]
        exact reached label address rfl
      refine hplain rfl ?_
      rw [Item.draft, ← UInt16.ofNat_add]
      exact .origin label hreached
    | words label targets =>
      subst hline
      have hextent := (Reader.map_extent_of_fill hfirst).2
      obtain ⟨values, hvalues, rfl⟩ := Reader.fill_line hfirst
      rw [← Reader.resolve?_of_fill hrest] at hvalues
      -- Values take up the place of the zeros.
      have hcount : bytesOf [(⟨label, UInt16.ofNat start, .data (values.flatMap littleEndian)⟩ :
          Line)] = bytesOf ((Item.words label targets).draft (UInt16.ofNat start) zeros) := by
        have htotal : bytesOf (before ++
              ([⟨label, UInt16.ofNat start, .data (values.flatMap littleEndian)⟩] ++ below)) =
            bytesOf (before ++ ((Item.words label targets).draft (UInt16.ofNat start) zeros ++
              below)) :=
          bytesOf_of_map_extent hextent
        rw [bytesOf_append, bytesOf_append, bytesOf_append, bytesOf_append] at htotal
        omega
      rw [List.append_cons] at hrest
      obtain ⟨laid, hlines, hlaid⟩ := ih (by rw [List.length_append]; rfl) hrest
      refine ⟨_, by rw [hlines, List.append_assoc], .cons (.words label hvalues) ?_⟩
      rw [hcount]
      exact hlaid

/-! ## The whole listing -/

/-- How a listing lies in the image of its program: in one piece for each line of the program, and
the lines are what the lines of the listing say. -/
structure Layout (source : String) (p : Program) (image : List UInt8) : Prop where
  pieces : ∃ pieces, p.Pieces pieces image
  items : ∃ constants items, definedConstants (numbered source.toList) = .ok constants ∧
    List.Forall₂ (fun line item => Item.OfText constants line.2 item)
      (numbered source.toList) items ∧
    LaidOut p 0 items p.lines

theorem laidOut_read {source : String} (h : read source = .ok p) (hfits : p.byteCount ≤ 0xffff) :
    ∃ constants items, definedConstants (numbered source.toList) = .ok constants ∧
      List.Forall₂ (fun line item => Item.OfText constants line.2 item)
        (numbered source.toList) items ∧
      LaidOut p 0 items p.lines := by
  unfold read at h
  simp only at h
  obtain ⟨constants, hconstants, h⟩ := Reader.bind_eq_ok h
  obtain ⟨r, hr, h⟩ := Reader.bind_eq_ok h
  have hbytes : bytesOf r.lines.toList ≤ 0xffff := by
    rw [← bytesOf_of_map_extent (Reader.map_extent_of_fill h).2]
    exact hfits
  obtain ⟨items, lines, words, hitems, hlines, hwords, hdrafted⟩ :=
    Reader.drafted_of_read (Reader.wellPlaced_start constants) hr hbytes
  rw [Reader.finish, hlines, hwords] at h
  obtain ⟨laid, hlaid, hlays⟩ := hdrafted.laidOut rfl h
  refine ⟨constants, items, hconstants, hitems, ?_⟩
  rw [hlaid]
  exact hlays

/-- The layout of a listing is exact, as long as it has fewer bytes than memory. -/
theorem layout_read {source : String} {p : Program} {image : List UInt8}
    (hread : read source = .ok p) (hfits : p.byteCount ≤ 0xffff)
    (hassemble : p.assemble = .ok image) : Layout source p image := by
  obtain ⟨constants, items, hconstants, hitems, hlaid⟩ := laidOut_read hread hfits
  exact ⟨(wellPlaced_read hread).exists_pieces hfits hassemble hlaid.labelOffset?,
    constants, items, hconstants, hitems, hlaid⟩

/-- A table of words that stands before what it names, and an origin that is reached with a zero. -/
def tableText : String :=
  "Base = $8000\n .org Base\nTable: .dw Last, Table+1\n .org Base+5\nLast: RTS"

def table : Program where
  origin := 0x8000
  lines := [
    ⟨none, 0, .constant "Base" 0x8000⟩, ⟨some "Table", 0, .data [0x05, 0x80, 0x01, 0x80]⟩,
    ⟨none, 4, .data [0]⟩, ⟨some "Last", 5, .code ⟨.rts, .implied⟩⟩]

theorem layout_read_table : read tableText = .ok table ∧
    table.assemble = .ok [0x05, 0x80, 0x01, 0x80, 0, 0x60] ∧
    Layout tableText table [0x05, 0x80, 0x01, 0x80, 0, 0x60] := by
  have hread : read tableText = .ok table := by decide +kernel
  have himage : table.assemble = .ok [0x05, 0x80, 0x01, 0x80, 0, 0x60] := by rfl
  exact ⟨hread, himage, layout_read hread (by decide +kernel) himage⟩

end Listing

end Lift6502
