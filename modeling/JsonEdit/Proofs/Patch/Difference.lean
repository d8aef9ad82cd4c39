import JsonEdit.Proofs.Number.Sum
import JsonEdit.Proofs.Patch.Objects
import JsonEdit.Proofs.Patch.Strings

/-!
# The difference of two trees

The difference of two trees turns the first into a tree that equals the second. It can also be tried on
a document that equals the first tree without being it: its keys may stand in another order, and its
numbers may be written in another way. Then everything goes through except, maybe, an addition to a
number, because equal numbers need not both have decimals: zeros at the end can make a number too long
for one. `Fits` says that every number which the difference adds to has a decimal in the document.
-/

namespace JsonEdit

namespace Operation

mutual

/-- Every number of the document that the difference of two trees adds to has a decimal. -/
def Fits (options : DiffOptions) (source : Json) : Json → Json → Prop := fun doc target =>
  source == target ∨
    match source, target, doc with
    | .object entries, .object others, .object found =>
      ∀ key value, Entries.find? key others = some value →
        ∀ fits, Entries.find? key (entryFits options found entries) = some fits → fits value
    | .array items, .array others, .array found =>
      options.arrayEdits →
        FitsBlocks (itemFits options items found) others
          (Block.ofRuns (Run.between (items.map Json.canonical) (others.map Json.canonical)))
    | .number number, .number other, .number found =>
      (betweenNumbers? number other).isSome → found.decimal?.isSome
    | _, _, _ => True

def itemFits (options : DiffOptions) : List Json → List Json → List (Json → Prop)
  | item :: rest, found :: more => Fits options item found :: itemFits options rest more
  | _, _ => []

def entryFits (options : DiffOptions) (found : Entries Json) :
    List (String × Json) → Entries (Json → Prop)
  | [] => []
  | (key, value) :: rest =>
    (key, fun target => ∀ doc, found.find? key = some doc → Fits options value doc target) ::
      entryFits options found rest
termination_by structural entries => entries

end

theorem changes_eq_map (options : DiffOptions) (items : List Json) :
    changes options items = items.map (between? options) := by
  induction items with
  | nil => rfl
  | cons item rest ih => rw [changes, ih, List.map_cons]

theorem entryChanges_eq_map (options : DiffOptions) (entries : Entries Json) :
    entryChanges options entries = entries.map fun entry => (entry.1, between? options entry.2) := by
  induction entries with
  | nil => rfl
  | cons entry rest ih => rw [entryChanges, ih, List.map_cons]

theorem find?_entryFits (options : DiffOptions) (found : Entries Json) (key : String)
    (entries : Entries Json) :
    Entries.find? key (entryFits options found entries) =
      (entries.find? key).map fun value target =>
        ∀ doc, found.find? key = some doc → Fits options value doc target := by
  induction entries with
  | nil => rfl
  | cons entry rest ih =>
      rw [entryFits, Entries.find?_cons, Entries.find?_cons, ih]
      split
      · rename_i heq
        subst heq
        rfl
      · rfl

variable (options : DiffOptions)

theorem between?_eq_none_of_beq {source target : Json} (hequal : source == target) :
    between? options source target = none := by
  unfold between?
  rw [if_pos hequal]

theorem between?_of_kind_ne {source target : Json} (hkind : source.kind ≠ target.kind) :
    between? options source target = some (.set target) := by
  have hne : ¬source == target := fun hequal => hkind (Json.kind_eq_of_beq hequal)
  unfold between?
  rw [if_neg hne]
  cases source <;> cases target <;> first | exact absurd rfl hkind | rfl

theorem fits_of_kind_ne {source target : Json} (doc : Json) (hkind : source.kind ≠ target.kind) :
    Fits options source doc target := by
  unfold Fits
  refine .inr ?_
  cases source <;> cases target <;> first | exact absurd rfl hkind | trivial

/-- Only unequal targets of the same kind need a closer look. -/
theorem turns_of_ne {source doc : Json} (hdoc : doc == source)
    (hgives : ∀ path target, ¬source == target → source.kind = target.kind → ∃ operation,
      between? options source target = some operation ∧
        Gives (Fits options source doc target) (· == target) (apply .strict path operation doc)) :
    Turns (between? options source) (Fits options source doc) doc := by
  intro path target
  by_cases hequal : source == target
  · rw [between?_eq_none_of_beq options hequal]
    refine ⟨?_, BEq.trans hdoc hequal⟩
    unfold Fits
    exact .inl hequal
  · by_cases hkind : source.kind = target.kind
    · obtain ⟨operation, hoperation, hgives⟩ := hgives path target hequal hkind
      rw [hoperation]
      exact hgives
    · rw [between?_of_kind_ne options hkind]
      exact ⟨fits_of_kind_ne options doc hkind, BEq.refl target⟩

/-! ### Numbers and strings -/

theorem gives_betweenNumbers? {number other found : Number} (path : Path) {operation : Operation}
    (hequal : number == found) (hbetween : betweenNumbers? number other = some operation) :
    Gives (found.decimal?.isSome) (· == .number other)
      (apply .strict path operation (.number found)) := by
  obtain ⟨amount, hamount, hbetween⟩ := Option.bind_eq_some_iff.mp hbetween
  obtain ⟨sum, hsum, hbetween⟩ := Option.bind_eq_some_iff.mp hbetween
  split at hbetween
  · rename_i hexact
    cases hbetween
    subst hexact
    rw [apply, PatchMode.recover_strict]
    by_cases hdecimal : found.decimal?.isSome
    · obtain ⟨sum', hsum', hequal'⟩ := Number.add?_of_beq hequal hsum hdecimal
      simp only [hsum']
      exact ⟨hdecimal, Json.number_beq_iff.mpr hequal'⟩
    · have hnone : found.add? amount = none := by
        rw [Number.add?, Option.not_isSome_iff_eq_none.mp hdecimal]
        rfl
      simp only [hnone]
      exact hdecimal
  · cases hbetween

theorem turns_number (number : Number) (doc : Json) (hdoc : doc == .number number) :
    Turns (between? options (.number number)) (Fits options (.number number) doc) doc := by
  refine turns_of_ne options hdoc fun path target hne hkind => ?_
  match target, doc, hkind, Json.kind_eq_of_beq hdoc with
  | .number other, .number found, _, _ =>
      have hfits : Fits options (.number number) (.number found) (.number other) ↔
          ((betweenNumbers? number other).isSome → found.decimal?.isSome) := by
        unfold Fits
        exact or_iff_right hne
      have hoperation : between? options (.number number) (.number other) =
          some ((betweenNumbers? number other).getD (.set (.number other))) := by
        unfold between?
        exact if_neg hne
      refine ⟨_, hoperation, ?_⟩
      rw [propext hfits]
      cases hbetween : betweenNumbers? number other with
      | none => exact ⟨by simp, BEq.refl _⟩
      | some operation =>
          have hnumber := Json.number_beq_iff.mp (BEq.symm hdoc)
          exact (gives_betweenNumbers? path hnumber hbetween).congr (by simp)

theorem turns_string (text : String) (doc : Json) (hdoc : doc == .string text) :
    Turns (between? options (.string text)) (Fits options (.string text) doc) doc := by
  refine turns_of_ne options hdoc fun path target hne hkind => ?_
  match target, doc, hkind, Json.kind_eq_of_beq hdoc with
  | .string other, .string found, _, _ =>
      have hoperation : between? options (.string text) (.string other) =
          some (betweenStrings options text other) := by
        unfold between?
        exact if_neg hne
      refine ⟨_, hoperation, ?_⟩
      cases Json.string_beq_iff.mp hdoc
      rw [apply_betweenStrings]
      unfold Fits
      exact ⟨.inr trivial, BEq.refl _⟩

/-! ### Arrays -/

/-- Elements that turn one by one. -/
theorem turnsAll_changes {items docs : List Json}
    (hturns : List.Forall₂ (fun item doc => Turns (between? options item) (Fits options item doc) doc)
      items docs) : TurnsAll (changes options items) (itemFits options items docs) docs := by
  induction hturns with
  | nil => trivial
  | cons hturn _ ih => exact ⟨hturn, ih⟩

theorem gives_betweenArrays (path : Path) {items others docs : List Json}
    (hequal : docs.map Json.canonical = items.map Json.canonical)
    (hall : TurnsAll (changes options items) (itemFits options items docs) docs) :
    Gives (FitsBlocks (itemFits options items docs) others
        (Block.ofRuns (Run.between (items.map Json.canonical) (others.map Json.canonical))))
      (· == .array others)
      (apply .strict path (betweenArrays (changes options items) items others) (.array docs)) := by
  have hlength : items.length = docs.length := by
    simpa using congrArg List.length hequal.symm
  have haligns := Block.aligns_ofRuns
    (Run.aligns_between (items.map Json.canonical) (others.map Json.canonical))
  rw [← hequal, Block.aligns_map_iff] at haligns
  simp only [Json.canonical_beq] at haligns
  have hedits := gives_arrayEditsOfBlocks path haligns hall []
  rw [hequal, List.nil_append, List.length_nil, ← hlength] at hedits
  rw [betweenArrays, apply]
  refine hedits.map fun result hresult => ?_
  obtain ⟨new, rfl, hnew⟩ := hresult
  rw [Json.array_beq_iff, ← List.forall₂_eq_eq_eq, List.forall₂_map_left_iff,
    List.forall₂_map_right_iff]
  exact hnew.imp fun _ _ => Json.beq_iff.mp

theorem turns_array (items : List Json) (doc : Json) (hdoc : doc == .array items)
    (ih : ∀ item ∈ items, ∀ doc, doc == item →
      Turns (between? options item) (Fits options item doc) doc) :
    Turns (between? options (.array items)) (Fits options (.array items) doc) doc := by
  refine turns_of_ne options hdoc fun path target hne hkind => ?_
  match target, doc, hkind, Json.kind_eq_of_beq hdoc with
  | .array others, .array docs, _, _ =>
      have hequal := Json.array_beq_iff.mp hdoc
      have hfits : Fits options (.array items) (.array docs) (.array others) ↔
          (options.arrayEdits → FitsBlocks (itemFits options items docs) others
            (Block.ofRuns (Run.between (items.map Json.canonical) (others.map Json.canonical)))) := by
        rw [Fits]
        exact or_iff_right hne
      have hoperation : between? options (.array items) (.array others) =
          some (if options.arrayEdits then betweenArrays (changes options items) items others
            else .set (.array others)) := by
        unfold between?
        exact if_neg hne
      refine ⟨_, hoperation, ?_⟩
      rw [propext hfits]
      by_cases hoption : options.arrayEdits
      · have hturns : List.Forall₂
            (fun item doc => Turns (between? options item) (Fits options item doc) doc) items docs := by
          have hsame : List.Forall₂ (fun item doc : Json => doc == item) items docs := by
            have hmap := hequal.symm
            rw [← List.forall₂_eq_eq_eq, List.forall₂_map_left_iff, List.forall₂_map_right_iff] at hmap
            exact hmap.imp fun _ _ heq => Json.beq_iff.mpr heq.symm
          exact ((List.forall₂_and_left _ _).mpr ⟨ih, hsame⟩).imp fun _ doc hboth => hboth.1 doc hboth.2
        rw [if_pos hoption]
        exact (gives_betweenArrays options path hequal (turnsAll_changes options hturns)).congr
          (by simp [hoption])
      · rw [if_neg hoption]
        exact ⟨fun hoption' => absurd hoption' hoption, BEq.refl _⟩

/-! ### Objects -/

theorem turns_object (entries : Entries Json) (doc : Json) (hdoc : doc == .object entries)
    (ih : ∀ entry ∈ entries, ∀ doc, doc == entry.2 →
      Turns (between? options entry.2) (Fits options entry.2 doc) doc) :
    Turns (between? options (.object entries)) (Fits options (.object entries) doc) doc := by
  refine turns_of_ne options hdoc fun path target hne hkind => ?_
  match target, doc, hkind, Json.kind_eq_of_beq hdoc with
  | .object others, .object found, _, _ =>
      have hequal := Json.object_beq_iff.mp hdoc
      have hoperation : between? options (.object entries) (.object others) =
          some (betweenObjects (entryChanges options entries) others) := by
        unfold between?
        exact if_neg hne
      have hfits : FitsEntries (entryChanges options entries)
          (fun key value => ∀ fits, Entries.find? key (entryFits options found entries) = some fits →
            fits value) others ↔
          Fits options (.object entries) (.object found) (.object others) := by
        rw [Fits]
        refine Iff.trans ?_ (or_iff_right hne).symm
        refine forall₂_congr fun key value => ⟨fun hkey hvalue fits hfound => ?_, fun hkey _ => hkey⟩
        refine hkey ?_ hvalue fits hfound
        rw [find?_entryFits] at hfound
        obtain ⟨source, hsource, -⟩ := Option.map_eq_some_iff.mp hfound
        rw [entryChanges_eq_map, Entries.has, Entries.find?_map, hsource]
        rfl
      refine ⟨_, hoperation, (gives_betweenObjects path ?_ ?_).congr hfits⟩
      · intro key change hchange
        rw [entryChanges_eq_map, Entries.find?_map] at hchange
        obtain ⟨source, hsource, rfl⟩ := Option.map_eq_some_iff.mp hchange
        have hkey := hequal key
        rw [hsource, Option.map_some] at hkey
        obtain ⟨value, hvalue, hcanonical⟩ := Option.map_eq_some_iff.mp hkey
        refine ⟨value, hvalue, ?_⟩
        have hcondition : (fun target => ∀ fits,
            Entries.find? key (entryFits options found entries) = some fits → fits target) =
            Fits options source value := by
          funext target
          simp [find?_entryFits, hsource, hvalue]
        rw [hcondition]
        exact ih _ (Entries.mem_of_find? hsource) value (Json.beq_iff.mpr hcanonical)
      · intro key hnone
        rw [entryChanges_eq_map, Entries.find?_map, Option.map_eq_none_iff] at hnone
        have hkey := hequal key
        rw [hnone, Option.map_none, Option.map_eq_none_iff] at hkey
        exact hkey

/-! ### All trees -/

/-- **The difference, tried on an equal document.** It goes through if and only if it fits, and then
its result equals the target. -/
theorem turns_between (source doc : Json) (hdoc : doc == source) :
    Turns (between? options source) (Fits options source doc) doc := by
  induction source using Json.induct generalizing doc with
  | null =>
      refine turns_of_ne options hdoc fun path target hne hkind => ?_
      cases target with
      | null => exact absurd rfl hne
      | _ => cases hkind
  | bool value =>
      refine turns_of_ne options hdoc fun path target hne _ => ?_
      refine ⟨.set target, ?_, ?_, BEq.refl target⟩
      · unfold between?
        rw [if_neg hne]
      · unfold Fits
        exact .inr trivial
  | number number => exact turns_number options number doc hdoc
  | string text => exact turns_string options text doc hdoc
  | array items ih => exact turns_array options items doc hdoc ih
  | object entries ih => exact turns_object options entries doc hdoc ih

/-! ### The first tree fits -/

theorem fitsBlocks_of_forall {fits : List (Json → Prop)} (hfits : ∀ fit ∈ fits, ∀ target, fit target)
    (target : List Json) (blocks : List Block) : FitsBlocks fits target blocks := by
  induction blocks generalizing fits target with
  | nil => trivial
  | cons block rest ih =>
      cases block with
      | keep count => exact ih (fun fit hfit => hfits fit (List.mem_of_mem_drop hfit)) _
      | change deleted inserted =>
          refine ⟨fun pair hpair => ?_, ih (fun fit hfit => hfits fit (List.mem_of_mem_drop hfit)) _⟩
          exact hfits pair.1 (List.mem_of_mem_take (List.of_mem_zip hpair).1) pair.2

theorem forall_mem_itemFits {items : List Json}
    (hitems : ∀ item ∈ items, ∀ target, Fits options item item target) :
    ∀ fit ∈ itemFits options items items, ∀ target, fit target := by
  induction items with
  | nil => exact fun fit hfit => by cases hfit
  | cons item rest ih =>
      obtain ⟨hitem, hrest⟩ := List.forall_mem_cons.mp hitems
      exact List.forall_mem_cons.mpr ⟨hitem, ih hrest⟩

theorem decimal?_isSome_of_betweenNumbers? {number other : Number}
    (hbetween : (betweenNumbers? number other).isSome) : number.decimal?.isSome := by
  obtain ⟨operation, hoperation⟩ := Option.isSome_iff_exists.mp hbetween
  obtain ⟨amount, -, hoperation⟩ := Option.bind_eq_some_iff.mp hoperation
  obtain ⟨sum, hsum, -⟩ := Option.bind_eq_some_iff.mp hoperation
  obtain ⟨decimal, _, _, hdecimal, -⟩ := Number.add?_eq_some_iff.mp hsum
  rw [hdecimal]
  rfl

/-- The first tree itself fits. -/
theorem fits_self (source target : Json) : Fits options source source target := by
  induction source using Json.induct generalizing target with
  | null | bool value | string text =>
      unfold Fits
      exact .inr trivial
  | number number =>
      by_cases hkind : (Json.number number).kind = target.kind
      · match target, hkind with
        | .number other, _ =>
            unfold Fits
            exact .inr decimal?_isSome_of_betweenNumbers?
      · exact fits_of_kind_ne options _ hkind
  | array items ih =>
      by_cases hkind : (Json.array items).kind = target.kind
      · match target, hkind with
        | .array others, _ =>
            unfold Fits
            exact .inr fun _ => fitsBlocks_of_forall (forall_mem_itemFits options ih) _ _
      · exact fits_of_kind_ne options _ hkind
  | object entries ih =>
      by_cases hkind : (Json.object entries).kind = target.kind
      · match target, hkind with
        | .object others, _ =>
            unfold Fits
            refine .inr fun key value hvalue fits hfits => ?_
            rw [find?_entryFits] at hfits
            obtain ⟨source, hsource, rfl⟩ := Option.map_eq_some_iff.mp hfits
            intro doc hdoc
            cases hsource.symm.trans hdoc
            exact ih _ (Entries.mem_of_find? hsource) value
      · exact fits_of_kind_ne options _ hkind

end Operation

namespace Patch

/-- **The difference on an equal document.** It goes through if and only if the document fits. -/
theorem gives_between (source target doc : Json) (options : DiffOptions) (hdoc : doc == source) :
    Gives (Operation.Fits options source doc target) (· == target)
      ((between source target options).apply .strict doc) := by
  have hturns := Operation.turns_between options source doc hdoc Path.root target
  unfold between apply
  split at hturns
  · rename_i hnone
    rw [hnone]
    exact hturns
  · rename_i operation hsome
    rw [hsome]
    simp only [Operation.applyPatch_root]
    exact hturns

/-- **The difference of two trees turns the first into the second.** -/
theorem apply_between (source target : Json) (options : DiffOptions) :
    ∃ result, (between source target options).apply .strict source = .ok result ∧ result == target :=
  (gives_between source target source options (BEq.refl source)).exists_ok
    (Operation.fits_self options source target)

/-- **Two differences in a row.** The second one goes through if and only if what the first one gives
fits, and then its result equals the last tree. -/
theorem apply_between_append (a b c : Json) (options : DiffOptions) :
    ∃ doc, (between a b options).apply .strict a = .ok doc ∧ doc == b ∧
      ((∃ result, Patch.apply (between a b options ++ between b c options) .strict a = .ok result ∧
        result == c) ↔ Operation.Fits options b doc c) := by
  obtain ⟨doc, hdoc, hequal⟩ :=
    (gives_between a b a options (BEq.refl a)).exists_ok (Operation.fits_self options a b)
  refine ⟨doc, hdoc, hequal, ?_⟩
  rw [apply] at hdoc
  rw [apply, Operation.applyPatch_append, hdoc]
  exact (gives_between b c doc options hequal).exists_ok_iff

/-- One with thirty zeros behind it is equal to one, but has no decimal. -/
theorem not_forall_apply_between_append :
    ¬∀ a b c : Json, ∃ result,
      Patch.apply (between a b ++ between b c) .strict a = .ok result ∧ result == c := by
  intro hall
  let one : Number := { whole := 1 }
  let long : Number := { whole := 1, fraction := List.replicate 30 0 }
  have hequal : Json.number long == Json.number one :=
    Json.number_beq_iff.mpr (Number.beq_append_zeros one 30)
  have hempty : between (.number long) (.number one) = [] := by
    rw [between, Operation.between?_eq_none_of_beq {} hequal]
  have hgives := gives_between (.number one) (.number { whole := 2 }) (.number long) {} hequal
  have hresult := hall (.number long) (.number one) (.number { whole := 2 })
  rw [hempty, List.nil_append] at hresult
  have hfits := hgives.exists_ok_iff.mp hresult
  unfold Operation.Fits at hfits
  rcases hfits with hsame | hdecimal
  · have hne : (one == { whole := 2 }) = false := by decide +kernel
    rw [Json.number_beq_iff, hne] at hsame
    cases hsame
  · have hsome := hdecimal (by decide)
    rw [Number.decimal?_eq_none_of_long rfl (by decide)] at hsome
    cases hsome

end Patch

end JsonEdit
