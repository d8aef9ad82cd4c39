import JsonEdit.Proofs.Json.Every
import JsonEdit.Proofs.Patch.Document
import JsonEdit.Proofs.Patch.Difference

/-!
# What the difference of two trees carries

The difference of two trees holds no nested patch. The trees in it are parts of the second tree, each at
the level where it will stand, and its positions and lengths are those of arrays and strings of the two
trees. So its document can be read back as far as trees are concerned: it is clean, its counts are small,
and for each level of the second tree it has three of its own.
-/

namespace JsonEdit

def StringEdit.Below (bound : Nat) : StringEdit → Prop
  | .insert position _ => position < bound
  | .delete position length | .modify position length _ => position < bound ∧ length < bound
  | .append _ => True

namespace Operation

section

variable (bound : Nat)

mutual

/-- There is no nested patch, trees are clean and no deeper than the height that is left for them,
exponents are in normal form, and positions and lengths are below the bound. -/
def Plain (height : Nat) : Operation → Prop
  | .set value => value.CleanTo height
  | .addNumber amount => amount.normal = amount
  | .editString edits => ∀ edit ∈ edits, edit.Below bound
  | .editArray edits => 0 < height ∧ PlainArrayEdits (height - 1) edits
  | .editObject edits => 0 < height ∧ PlainObjectEdits (height - 1) edits
  | .nested _ => False

def PlainArrayEdits (height : Nat) : List (SequenceEdit Json Operation) → Prop
  | [] => True
  | edit :: rest => PlainArrayEdit height edit ∧ PlainArrayEdits height rest

def PlainArrayEdit (height : Nat) : SequenceEdit Json Operation → Prop
  | .insert position values => position < bound ∧ ∀ value ∈ values, value.CleanTo height
  | .append values => ∀ value ∈ values, value.CleanTo height
  | .delete position length => position < bound ∧ length < bound
  | .modify position operation => position < bound ∧ Plain height operation

def PlainObjectEdits (height : Nat) : List (MapEdit String Json Operation) → Prop
  | [] => True
  | edit :: rest => PlainObjectEdit height edit ∧ PlainObjectEdits height rest

def PlainObjectEdit (height : Nat) : MapEdit String Json Operation → Prop
  | .add _ value => value.CleanTo height
  | .remove _ => True
  | .modify _ operation => Plain height operation

end

end

variable {bound height : Nat}

theorem plainArrayEdits_iff {edits : List (SequenceEdit Json Operation)} :
    PlainArrayEdits bound height edits ↔ ∀ edit ∈ edits, PlainArrayEdit bound height edit := by
  induction edits with
  | nil => simp [PlainArrayEdits]
  | cons edit rest ih => rw [PlainArrayEdits, ih, List.forall_mem_cons]

theorem plainObjectEdits_iff {edits : List (MapEdit String Json Operation)} :
    PlainObjectEdits bound height edits ↔ ∀ edit ∈ edits, PlainObjectEdit bound height edit := by
  induction edits with
  | nil => simp [PlainObjectEdits]
  | cons edit rest ih => rw [PlainObjectEdits, ih, List.forall_mem_cons]

/-! ### Strings and numbers -/

theorem below_ofBlocks {blocks : List Block} {same : Char → Char → Prop} {chars target : List Char}
    (haligns : Block.Aligns same blocks chars target) (hchars : chars.length < bound)
    (position length : Nat) (hposition : position + target.length < bound) :
    ∀ edit ∈ StringEdit.ofBlocks target position length blocks, edit.Below bound := by
  induction blocks generalizing chars target position length with
  | nil => exact fun edit hedit => by cases hedit
  | cons block rest ih =>
      cases block with
      | keep count =>
          obtain ⟨hcount, hcount', -, hrest⟩ := haligns
          exact ih hrest (by rw [List.length_drop]; omega) _ _ (by rw [List.length_drop]; omega)
      | change deleted inserted =>
          obtain ⟨hdeleted, hinserted, hrest⟩ := haligns
          rw [StringEdit.ofBlocks, List.forall_mem_cons]
          refine ⟨?_, ih hrest (by rw [List.length_drop]; omega) _ _
            (by rw [List.length_drop]; omega)⟩
          have hboth : position < bound ∧ deleted < bound := by omega
          split
          · split
            · trivial
            · exact hboth.1
          · split
            · exact hboth
            · exact hboth

theorem plain_betweenStrings (options : DiffOptions) {source target : String}
    (hsource : source.length < bound) (htarget : target.length < bound) :
    Plain bound height (betweenStrings options source target) := by
  unfold betweenStrings
  split
  · refine below_ofBlocks (Block.aligns_ofRuns (Run.aligns_between source.toList target.toList))
      ?_ 0 _ ?_
    · rwa [String.length_toList]
    · rwa [String.length_toList, Nat.zero_add]
  · exact List.forall_mem_singleton.mpr ⟨by omega, hsource⟩

theorem plain_betweenNumbers? {number other : Number} {operation : Operation}
    (hbetween : betweenNumbers? number other = some operation) : Plain bound height operation := by
  obtain ⟨amount, hamount, hbetween⟩ := Option.bind_eq_some_iff.mp hbetween
  obtain ⟨sum, -, hbetween⟩ := Option.bind_eq_some_iff.mp hbetween
  obtain ⟨_, _, decimal, -, -, -, rfl⟩ := Number.sub?_eq_some_iff.mp hamount
  split at hbetween
  · cases hbetween
    rfl
  · cases hbetween

/-! ### Arrays and objects -/

def PlainChange (bound height : Nat) (change : Change) (targets : List Json) : Prop :=
  ∀ target ∈ targets, ∀ operation, change target = some operation → Plain bound height operation

theorem plain_pairedEdits {changes : List Change} {targets : List Json}
    (hchanges : ∀ change ∈ changes, PlainChange bound height change targets) (position : Nat)
    (hposition : position + targets.length < bound) :
    ∀ edit ∈ pairedEdits position changes targets, PlainArrayEdit bound height edit := by
  induction changes generalizing targets position with
  | nil =>
      rw [pairedEdits.eq_2 _ _ _ (by simp)]
      exact fun edit hedit => by cases hedit
  | cons change changes ih =>
      cases targets with
      | nil =>
          rw [pairedEdits.eq_2 _ _ _ (by simp)]
          exact fun edit hedit => by cases hedit
      | cons target targets =>
          obtain ⟨hchange, hchanges⟩ := List.forall_mem_cons.mp hchanges
          rw [List.length_cons] at hposition
          have hrest := ih (fun other hother value hvalue =>
            hchanges other hother value (List.mem_cons_of_mem _ hvalue)) (position + 1) (by omega)
          rw [pairedEdits]
          split
          · rename_i operation hoperation
            refine List.forall_mem_cons.mpr ⟨⟨by omega, ?_⟩, hrest⟩
            exact hchange target List.mem_cons_self operation hoperation
          · exact hrest

theorem plain_arrayEditsOfChange {changes : List Change} {inserted : List Json}
    (hchanges : ∀ change ∈ changes, PlainChange bound height change inserted)
    (hinserted : ∀ value ∈ inserted, value.CleanTo height) (position length : Nat)
    (hposition : position + inserted.length < bound) (hcount : changes.length < bound) :
    ∀ edit ∈ arrayEditsOfChange changes inserted position length, PlainArrayEdit bound height edit := by
  intro edit hedit
  have hrest : ∀ value ∈ inserted.drop (min changes.length inserted.length), value.CleanTo height :=
    fun value hvalue => hinserted value (List.mem_of_mem_drop hvalue)
  have hafter : position + min changes.length inserted.length < bound := by omega
  unfold arrayEditsOfChange at hedit
  rcases List.mem_append.mp hedit with hedit | hadded
  · rcases List.mem_append.mp hedit with hpaired | hremoved
    · exact plain_pairedEdits hchanges position hposition edit hpaired
    · split at hremoved
      · cases hremoved
      · rw [List.mem_singleton.mp hremoved]
        exact ⟨hafter, by omega⟩
  · split at hadded
    · cases hadded
    · split at hadded
      · rw [List.mem_singleton.mp hadded]
        exact hrest
      · rw [List.mem_singleton.mp hadded]
        exact ⟨hafter, hrest⟩

theorem plain_arrayEditsOfBlocks {blocks : List Block} {same : Json → Json → Prop}
    {items target : List Json} {changes : List Change}
    (haligns : Block.Aligns same blocks items target)
    (hchanges : ∀ change ∈ changes, PlainChange bound height change target)
    (htarget : ∀ value ∈ target, value.CleanTo height) (position length : Nat)
    (hposition : position + target.length < bound) (hcount : changes.length < bound) :
    ∀ edit ∈ arrayEditsOfBlocks changes target position length blocks, PlainArrayEdit bound height edit := by
  induction blocks generalizing items target changes position length with
  | nil => exact fun edit hedit => by cases hedit
  | cons block rest ih =>
      cases block with
      | keep count =>
          obtain ⟨-, hcount', -, hrest⟩ := haligns
          refine ih hrest (fun change hchange value hvalue => ?_)
            (fun value hvalue => htarget value (List.mem_of_mem_drop hvalue)) _ _
            (by rw [List.length_drop]; omega) (by rw [List.length_drop]; omega)
          exact hchanges change (List.mem_of_mem_drop hchange) value (List.mem_of_mem_drop hvalue)
      | change deleted inserted =>
          obtain ⟨-, hinserted, hrest⟩ := haligns
          rw [arrayEditsOfBlocks, List.forall_mem_append]
          constructor
          · refine plain_arrayEditsOfChange (fun change hchange value hvalue => ?_)
              (fun value hvalue => htarget value (List.mem_of_mem_take hvalue)) _ _
              (by rw [List.length_take]; omega) (by rw [List.length_take]; omega)
            exact hchanges change (List.mem_of_mem_take hchange) value (List.mem_of_mem_take hvalue)
          · refine ih hrest (fun change hchange value hvalue => ?_)
              (fun value hvalue => htarget value (List.mem_of_mem_drop hvalue)) _ _
              (by rw [List.length_drop]; omega) (by rw [List.length_drop]; omega)
            exact hchanges change (List.mem_of_mem_drop hchange) value (List.mem_of_mem_drop hvalue)

theorem plain_betweenArrays (options : DiffOptions) {items others : List Json}
    (hitems : ∀ item ∈ items, PlainChange bound height (between? options item) others)
    (hothers : ∀ value ∈ others, value.CleanTo height) (hlength : items.length < bound)
    (hlength' : others.length < bound) :
    Plain bound (height + 1) (betweenArrays (changes options items) items others) := by
  have haligns := Block.aligns_map_iff.mp (Block.aligns_ofRuns
    (Run.aligns_between (items.map Json.canonical) (others.map Json.canonical)))
  rw [betweenArrays, Plain, plainArrayEdits_iff, changes_eq_map]
  refine ⟨Nat.succ_pos height, ?_⟩
  refine plain_arrayEditsOfBlocks haligns (fun change hchange => ?_) hothers 0 _ (by omega)
    (by rwa [List.length_map])
  obtain ⟨item, hitem, rfl⟩ := List.mem_map.mp hchange
  exact hitems item hitem

theorem plain_betweenObjects (options : DiffOptions) {entries others : Entries Json}
    (hentries : ∀ entry ∈ entries,
      PlainChange bound height (between? options entry.2) (others.map Prod.snd))
    (hothers : ∀ entry ∈ others, entry.2.CleanTo height) :
    Plain bound (height + 1) (betweenObjects (entryChanges options entries) others) := by
  rw [betweenObjects_eq, Plain, plainObjectEdits_iff, List.forall_mem_append, List.forall_mem_append]
  refine ⟨Nat.succ_pos height, ⟨?_, ?_⟩, ?_⟩
  · intro edit hedit
    obtain ⟨entry, -, rfl⟩ := List.mem_map.mp hedit
    trivial
  · intro edit hedit
    obtain ⟨⟨key, change⟩, hentry, hedit⟩ := List.mem_filterMap.mp hedit
    obtain ⟨value, hvalue, hedit⟩ := Option.bind_eq_some_iff.mp hedit
    obtain ⟨operation, hoperation, rfl⟩ := Option.map_eq_some_iff.mp hedit
    have hchange := Entries.mem_of_mem_firsts hentry
    rw [entryChanges_eq_map] at hchange
    obtain ⟨source, hsource, heq⟩ := List.mem_map.mp hchange
    cases heq
    exact hentries source hsource value (List.mem_map_of_mem (Entries.mem_of_find? hvalue)) operation
      hoperation
  · intro edit hedit
    obtain ⟨entry, hentry, rfl⟩ := List.mem_map.mp hedit
    exact hothers entry (Entries.mem_of_mem_firsts (List.mem_of_mem_filter hentry))

/-- What the operation between two trees can be. -/
theorem between?_eq_some {options : DiffOptions} {source target : Json} {operation : Operation}
    (hbetween : between? options source target = some operation) :
    operation = .set target ∨
      (∃ number other, source = .number number ∧ target = .number other ∧
        betweenNumbers? number other = some operation) ∨
      (∃ text other, source = .string text ∧ target = .string other ∧
        operation = betweenStrings options text other) ∨
      (∃ items others, source = .array items ∧ target = .array others ∧
        operation = betweenArrays (changes options items) items others) ∨
      (∃ entries others, source = .object entries ∧ target = .object others ∧
        operation = betweenObjects (entryChanges options entries) others) := by
  unfold between? at hbetween
  split at hbetween
  · cases hbetween
  · replace hbetween := Option.some.inj hbetween
    split at hbetween
    · exact .inr (.inr (.inr (.inr ⟨_, _, rfl, rfl, hbetween.symm⟩)))
    · split at hbetween
      · exact .inr (.inr (.inr (.inl ⟨_, _, rfl, rfl, hbetween.symm⟩)))
      · exact .inl hbetween.symm
    · rename_i number other _
      cases hnumber : betweenNumbers? number other with
      | none =>
          rw [hnumber] at hbetween
          exact .inl hbetween.symm
      | some addition =>
          rw [hnumber] at hbetween
          cases hbetween
          exact .inr (.inl ⟨_, _, rfl, rfl, hnumber⟩)
    · exact .inr (.inr (.inl ⟨_, _, rfl, rfl, hbetween.symm⟩))
    · exact .inl hbetween.symm

def PlainFrom (bound : Nat) (options : DiffOptions) (source : Json) : Prop :=
  ∀ target operation height, between? options source target = some operation →
    source.Within bound → target.Within bound → target.CleanTo height → Plain bound height operation

theorem plainFrom_of_children {options : DiffOptions} {source : Json}
    (hitems : ∀ items, source = .array items → ∀ item ∈ items, PlainFrom bound options item)
    (hentries : ∀ entries, source = .object entries →
      ∀ entry ∈ entries, PlainFrom bound options entry.2) :
    PlainFrom bound options source := by
  intro target operation height hbetween hsource htarget hclean
  rcases between?_eq_some hbetween with rfl | ⟨number, other, rfl, rfl, hnumber⟩ |
    ⟨text, other, rfl, rfl, rfl⟩ | ⟨items, others, rfl, rfl, rfl⟩ | ⟨entries, others, rfl, rfl, rfl⟩
  · exact hclean
  · exact plain_betweenNumbers? hnumber
  · exact plain_betweenStrings options hsource htarget
  · obtain ⟨below, rfl⟩ := Nat.exists_eq_add_of_lt (Nat.lt_of_lt_of_le (Nat.succ_pos _) hclean.2)
    rw [Nat.zero_add] at hclean ⊢
    obtain ⟨hlength, hitemsWithin⟩ := Json.within_array.mp hsource
    obtain ⟨hlength', hothersWithin⟩ := Json.within_array.mp htarget
    have hothers := Json.cleanTo_array.mp hclean
    refine plain_betweenArrays options (fun item hitem value hvalue operation hoperation => ?_) hothers
      hlength hlength'
    exact hitems items rfl item hitem value operation below hoperation (hitemsWithin item hitem)
      (hothersWithin value hvalue) (hothers value hvalue)
  · obtain ⟨below, rfl⟩ := Nat.exists_eq_add_of_lt (Nat.lt_of_lt_of_le (Nat.succ_pos _) hclean.2)
    rw [Nat.zero_add] at hclean ⊢
    have hentriesWithin := Json.within_object.mp hsource
    have hothersWithin := Json.within_object.mp htarget
    have hothers := (Json.cleanTo_object.mp hclean).2
    refine plain_betweenObjects options (fun entry hentry value hvalue operation hoperation => ?_) hothers
    obtain ⟨other, hother, rfl⟩ := List.mem_map.mp hvalue
    exact hentries entries rfl entry hentry other.2 operation below hoperation
      (hentriesWithin entry hentry) (hothersWithin other hother) (hothers other hother)

/-- **The difference of two trees is plain.** -/
theorem plain_between? (options : DiffOptions) (source : Json) : PlainFrom bound options source := by
  induction source using Json.induct with
  | array items ih =>
      refine plainFrom_of_children (fun others heq => ?_) fun _ heq => by cases heq
      cases heq
      exact ih
  | object entries ih =>
      refine plainFrom_of_children (fun _ heq => by cases heq) fun others heq => ?_
      cases heq
      exact ih
  | _ => exact plainFrom_of_children (fun _ heq => by cases heq) fun _ heq => by cases heq

/-! ### Documents -/

section

variable {n : Nat}

theorem cleanTo_described {name : String} {fields : Entries Json}
    (hkeys : ("op" :: fields.map Prod.fst).Nodup) (hfields : ∀ field ∈ fields, field.2.CleanTo n) :
    (described name fields).CleanTo (n + 1) := by
  refine Json.cleanTo_object.mpr ⟨⟨Entries.distinct_iff_nodup.mpr hkeys, ?_⟩, ?_⟩
  · change some "op" ≠ some Reader.numberKey
    decide
  · exact List.forall_mem_cons.mpr ⟨⟨⟨trivial, trivial⟩, Nat.zero_le n⟩, hfields⟩

theorem cleanTo_described_one {name key : String} {value : Json} (hkey : key ≠ "op")
    (hvalue : value.CleanTo n) : (described name [(key, value)]).CleanTo (n + 1) :=
  cleanTo_described (by simpa using hkey.symm) (List.forall_mem_singleton.mpr hvalue)

theorem cleanTo_described_two {name key other : String} {value value' : Json}
    (hkeys : ["op", key, other].Nodup) (hvalue : value.CleanTo n) (hvalue' : value'.CleanTo n) :
    (described name [(key, value), (other, value')]).CleanTo (n + 1) :=
  cleanTo_described hkeys (List.forall_mem_cons.mpr ⟨hvalue, List.forall_mem_singleton.mpr hvalue'⟩)

theorem cleanTo_string (text : String) : (Json.string text).CleanTo n :=
  ⟨⟨trivial, trivial⟩, Nat.zero_le n⟩

theorem cleanTo_ofNat (count : Nat) : (Json.ofNat count).CleanTo n :=
  ⟨⟨rfl, trivial⟩, Nat.zero_le n⟩

theorem cleanTo_stringEdit (edit : StringEdit) : edit.toJson.CleanTo 1 := by
  cases edit with
  | insert position text =>
      exact cleanTo_described_two (by decide) (cleanTo_ofNat position) (cleanTo_string text)
  | delete position length =>
      exact cleanTo_described_two (by decide) (cleanTo_ofNat position) (cleanTo_ofNat length)
  | append text => exact cleanTo_described_one (by decide) (cleanTo_string text)
  | modify position length text =>
      refine cleanTo_described (show ["op", "index", "length", "text"].Nodup by decide) ?_
      simp [cleanTo_ofNat, cleanTo_string]

end

mutual

/-- Going one level down in a tree takes three levels of the document: the object of the operation, the
array of the edits and the object of the edit. -/
theorem cleanTo_toJson : (operation : Operation) → {height : Nat} → operation.Plain bound height →
    (described operation.name operation.fields).CleanTo (3 * height + 3)
  | .set value, height, hplain =>
      (cleanTo_described_one (by decide) hplain).mono (by omega)
  | .addNumber amount, height, hplain =>
      cleanTo_described_one (by decide) ⟨⟨hplain, trivial⟩, Nat.zero_le _⟩
  | .editString edits, height, _ => by
      have hedits : (Json.array (edits.map StringEdit.toJson)).CleanTo 2 := by
        refine Json.cleanTo_array.mpr fun document hdocument => ?_
        obtain ⟨edit, -, rfl⟩ := List.mem_map.mp hdocument
        exact cleanTo_stringEdit edit
      exact (cleanTo_described_one (by decide) hedits).mono (by omega)
  | .editArray edits, height, ⟨hheight, hplain⟩ =>
      (cleanTo_described_one (by decide)
        (Json.cleanTo_array.mpr (cleanTo_arrayEditsToJson edits hplain))).mono (by omega)
  | .editObject edits, height, ⟨hheight, hplain⟩ =>
      (cleanTo_described_one (by decide)
        (Json.cleanTo_array.mpr (cleanTo_objectEditsToJson edits hplain))).mono (by omega)

theorem cleanTo_arrayEditsToJson : (edits : List (SequenceEdit Json Operation)) → {height : Nat} →
    PlainArrayEdits bound height edits →
    ∀ document ∈ arrayEditsToJson edits, document.CleanTo (3 * height + 4)
  | [], _, _ => fun document hdocument => by cases hdocument
  | .insert position values :: rest, height, hplain => by
      refine List.forall_mem_cons.mpr ⟨?_, cleanTo_arrayEditsToJson rest hplain.2⟩
      have hvalues := Json.cleanTo_array.mpr hplain.1.2
      exact cleanTo_described_two (by decide) (cleanTo_ofNat position) (hvalues.mono (by omega))
  | .append values :: rest, height, hplain => by
      refine List.forall_mem_cons.mpr ⟨?_, cleanTo_arrayEditsToJson rest hplain.2⟩
      have hvalues := Json.cleanTo_array.mpr hplain.1
      exact cleanTo_described_one (by decide) (hvalues.mono (by omega))
  | .delete position length :: rest, height, hplain => by
      refine List.forall_mem_cons.mpr ⟨?_, cleanTo_arrayEditsToJson rest hplain.2⟩
      exact cleanTo_described_two (by decide) (cleanTo_ofNat position) (cleanTo_ofNat length)
  | .modify position operation :: rest, height, hplain => by
      refine List.forall_mem_cons.mpr ⟨?_, cleanTo_arrayEditsToJson rest hplain.2⟩
      exact cleanTo_described_two (by decide) (cleanTo_ofNat position)
        (cleanTo_toJson operation hplain.1.2)

theorem cleanTo_objectEditsToJson : (edits : List (MapEdit String Json Operation)) → {height : Nat} →
    PlainObjectEdits bound height edits →
    ∀ document ∈ objectEditsToJson edits, document.CleanTo (3 * height + 4)
  | [], _, _ => fun document hdocument => by cases hdocument
  | .add key value :: rest, height, hplain => by
      refine List.forall_mem_cons.mpr ⟨?_, cleanTo_objectEditsToJson rest hplain.2⟩
      have hvalue : value.CleanTo height := hplain.1
      exact cleanTo_described_two (by decide) (cleanTo_string key) (hvalue.mono (by omega))
  | .remove key :: rest, height, hplain => by
      refine List.forall_mem_cons.mpr ⟨?_, cleanTo_objectEditsToJson rest hplain.2⟩
      exact cleanTo_described_one (by decide) (cleanTo_string key)
  | .modify key operation :: rest, height, hplain => by
      refine List.forall_mem_cons.mpr ⟨?_, cleanTo_objectEditsToJson rest hplain.2⟩
      exact cleanTo_described_two (by decide) (cleanTo_string key) (cleanTo_toJson operation hplain.1)

end

mutual

theorem storable_of_plain : (operation : Operation) → {height : Nat} →
    operation.Plain (2 ^ 64) height → operation.Storable
  | .set _, _, _ | .addNumber _, _, _ => trivial
  | .editString edits, _, hplain => fun edit hedit => by
      have hbelow := hplain edit hedit
      cases edit with
      | append text => trivial
      | _ => exact hbelow
  | .editArray edits, _, hplain => storableArrayEdits_of_plain edits hplain.2
  | .editObject edits, _, hplain => storableObjectEdits_of_plain edits hplain.2

theorem storableArrayEdits_of_plain : (edits : List (SequenceEdit Json Operation)) → {height : Nat} →
    PlainArrayEdits (2 ^ 64) height edits → StorableArrayEdits edits
  | [], _, _ => trivial
  | .insert _ _ :: rest, _, ⟨hedit, hrest⟩ => ⟨hedit.1, storableArrayEdits_of_plain rest hrest⟩
  | .append _ :: rest, _, ⟨_, hrest⟩ => storableArrayEdits_of_plain rest hrest
  | .delete _ _ :: rest, _, ⟨hedit, hrest⟩ =>
      ⟨hedit.1, hedit.2, storableArrayEdits_of_plain rest hrest⟩
  | .modify _ operation :: rest, _, ⟨hedit, hrest⟩ =>
      ⟨hedit.1, storable_of_plain operation hedit.2, storableArrayEdits_of_plain rest hrest⟩

theorem storableObjectEdits_of_plain : (edits : List (MapEdit String Json Operation)) → {height : Nat} →
    PlainObjectEdits (2 ^ 64) height edits → StorableObjectEdits edits
  | [], _, _ => trivial
  | .add _ _ :: rest, _, ⟨_, hrest⟩ | .remove _ :: rest, _, ⟨_, hrest⟩ =>
      storableObjectEdits_of_plain rest hrest
  | .modify _ operation :: rest, _, ⟨hedit, hrest⟩ =>
      ⟨storable_of_plain operation hedit, storableObjectEdits_of_plain rest hrest⟩

end

end Operation

end JsonEdit
