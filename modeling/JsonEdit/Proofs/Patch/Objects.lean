import JsonEdit.Proofs.Patch.Arrays

/-!
# The difference of two objects

The edits of an object come in three groups: keys that are gone are removed, values of common keys are
changed, and new keys are added. Each group is described by what every key finds after it. No key
occurs twice in a group, so the edits of a group do not get in each other's way.
-/

namespace JsonEdit.Operation

variable (path : Path) {α : Type} {entries : Entries Json}

theorem applyObjectEdits_removals {pairs : Entries α} (hdistinct : pairs.Distinct)
    (hpresent : ∀ key, pairs.has key → entries.has key) :
    ∃ result, applyObjectEdits .strict path (pairs.map fun entry => .remove entry.1) entries =
        .ok result ∧
      ∀ key, result.find? key = if pairs.has key then none else entries.find? key := by
  induction pairs generalizing entries with
  | nil => exact ⟨entries, rfl, fun _ => rfl⟩
  | cons entry rest ih =>
      obtain ⟨hfresh, hrest⟩ := Entries.distinct_cons.mp hdistinct
      have hentry : entries.has entry.1 := hpresent entry.1 (by simp [Entries.has, Entries.find?_cons])
      have hothers : ∀ key, Entries.has key rest → (entries.erase entry.1).has key := by
        intro key hkey
        have hne : key ≠ entry.1 := by
          rintro rfl
          rw [Entries.has_eq_false_iff.mpr hfresh] at hkey
          cases hkey
        have hfound := hpresent key (by simpa [Entries.has, Entries.find?_cons, Ne.symm hne] using hkey)
        rwa [Entries.has, Entries.find?_erase, if_neg hne]
      obtain ⟨result, hresult, hfind⟩ := ih hrest hothers
      refine ⟨result, ?_, fun key => ?_⟩
      · rw [List.map_cons, applyObjectEdits_cons, applyObjectEdit, if_pos hentry]
        exact hresult
      · rw [hfind, Entries.find?_erase, Entries.has, Entries.has, Entries.find?_cons]
        by_cases hkey : entry.1 = key
        · simp [hkey]
        · simp [hkey, Ne.symm hkey]

theorem applyObjectEdits_additions {pairs : Entries Json} (hdistinct : pairs.Distinct)
    (habsent : ∀ key, pairs.has key → entries.find? key = none) :
    ∃ result, applyObjectEdits .strict path (pairs.map fun entry => .add entry.1 entry.2) entries =
        .ok result ∧
      ∀ key, result.find? key = (pairs.find? key).or (entries.find? key) := by
  induction pairs generalizing entries with
  | nil => exact ⟨entries, rfl, fun _ => rfl⟩
  | cons entry rest ih =>
      obtain ⟨hfresh, hrest⟩ := Entries.distinct_cons.mp hdistinct
      have hentry : entries.has entry.1 = false :=
        Entries.has_eq_false_iff.mpr (habsent entry.1 (by simp [Entries.has, Entries.find?_cons]))
      have hothers : ∀ key, Entries.has key rest →
          (entries.put entry.1 entry.2).find? key = none := by
        intro key hkey
        have hne : key ≠ entry.1 := by
          rintro rfl
          rw [Entries.has_eq_false_iff.mpr hfresh] at hkey
          cases hkey
        rw [Entries.find?_put, if_neg hne]
        exact habsent key (by simpa [Entries.has, Entries.find?_cons, Ne.symm hne] using hkey)
      obtain ⟨result, hresult, hfind⟩ := ih hrest hothers
      refine ⟨result, ?_, fun key => ?_⟩
      · rw [List.map_cons, applyObjectEdits_cons, applyObjectEdit, if_neg (by simp [hentry])]
        exact hresult
      · rw [hfind, Entries.find?_put, Entries.find?_cons]
        by_cases hkey : entry.1 = key
        · simp [← hkey, hfresh]
        · simp [hkey, Ne.symm hkey]

/-! ### Values of common keys -/

def modifications (changes : Entries Change) (target : Entries Json) :
    List (MapEdit String Json Operation) :=
  changes.filterMap fun entry =>
    (target.find? entry.1).bind fun value =>
      (entry.2 value).map fun operation => .modify entry.1 operation

def FitsEntries (changes : Entries Change) (fits : String → Json → Prop) (target : Entries Json) :
    Prop :=
  ∀ key value, changes.has key → target.find? key = some value → fits key value

theorem fitsEntries_cons {entry : String × Change} {changes : Entries Change}
    {fits : String → Json → Prop} {target : Entries Json} :
    FitsEntries (entry :: changes) fits target ↔
      (∀ value, target.find? entry.1 = some value → fits entry.1 value) ∧
        FitsEntries changes fits target := by
  constructor
  · intro hfits
    refine ⟨fun value hvalue => hfits _ value (by simp [Entries.has, Entries.find?_cons]) hvalue, ?_⟩
    intro key value hkey
    refine hfits key value ?_
    rw [Entries.has, Entries.find?_cons]
    split
    · rfl
    · exact hkey
  · rintro ⟨hentry, hrest⟩ key value hkey hvalue
    rw [Entries.has, Entries.find?_cons] at hkey
    split at hkey
    · rename_i heq
      cases heq
      exact hentry value hvalue
    · exact hrest key value hkey hvalue

def Reached (target entries result : Entries Json) (key : String) : Prop :=
  match target.find? key with
  | some value => ∃ new, result.find? key = some new ∧ new == value
  | none => result.find? key = entries.find? key

/-- The values of the common keys have become those of the target, and nothing else has changed. -/
def Modified (changes : Entries Change) (target entries result : Entries Json) : Prop :=
  ∀ key,
    if changes.has key then Reached target entries result key
    else result.find? key = entries.find? key

/-- The first key has been dealt with, and the edits of the rest do not touch it. -/
theorem modified_cons {entry : String × Change} {changes : Entries Change}
    {target middle result : Entries Json} (hfresh : changes.find? entry.1 = none)
    (hframe : ∀ key, key ≠ entry.1 → middle.find? key = entries.find? key)
    (hreached : Reached target entries middle entry.1) (hrest : Modified changes target middle result) :
    Modified (entry :: changes) target entries result := by
  intro key
  have hkey := hrest key
  rw [Entries.has, Entries.find?_cons]
  by_cases heq : key = entry.1
  · rw [if_pos heq.symm, Option.isSome_some, if_pos rfl]
    subst heq
    rw [Entries.has_eq_false_iff.mpr hfresh, if_neg Bool.false_ne_true] at hkey
    unfold Reached at hreached ⊢
    rwa [hkey]
  · rw [if_neg (Ne.symm heq)]
    unfold Reached at hkey ⊢
    rwa [hframe key heq] at hkey

theorem gives_modify {key : String} {change : Change} {fits : Json → Prop} {found value : Json}
    {operation : Operation} (hturn : Turns change fits found) (hfound : entries.find? key = some found)
    (hchange : change value = some operation) :
    Gives (fits value)
      (fun middle => (∀ other, other ≠ key → middle.find? other = entries.find? other) ∧
        ∃ new, middle.find? key = some new ∧ new == value)
      (applyObjectEdit .strict path (.modify key operation) entries) := by
  have hgives := hturn (path.child (.field key)) value
  rw [hchange] at hgives
  rw [applyObjectEdit, hfound]
  refine Gives.map hgives fun new hnew => ⟨fun other hne => ?_, new, ?_, hnew⟩
  · rw [Entries.find?_replace, if_neg fun hboth => hne hboth.1]
  · rw [Entries.find?_replace, if_pos ⟨rfl, Entries.has_iff.mpr ⟨found, hfound⟩⟩]

theorem gives_modifications {changes : Entries Change} {fits : String → Json → Prop}
    {target : Entries Json} (hdistinct : changes.Distinct)
    (hturns : ∀ key change value, changes.find? key = some change → target.find? key = some value →
      ∃ found, entries.find? key = some found ∧ Turns change (fits key) found) :
    Gives (FitsEntries changes fits target) (Modified changes target entries)
      (applyObjectEdits .strict path (modifications changes target) entries) := by
  induction changes generalizing entries with
  | nil => exact (Gives.of_ok fun _ => rfl).congr (by simp [FitsEntries, Entries.has])
  | cons entry rest ih =>
      obtain ⟨hfresh, hdistinct⟩ := Entries.distinct_cons.mp hdistinct
      have hturn := fun value => hturns entry.1 entry.2 value (by rw [Entries.find?_cons, if_pos rfl])
      -- whatever the edit of the first key has left, the other edits do their part
      have hrest : ∀ middle : Entries Json,
          (∀ key, key ≠ entry.1 → middle.find? key = entries.find? key) →
          Reached target entries middle entry.1 →
          Gives (FitsEntries rest fits target) (Modified (entry :: rest) target entries)
            (applyObjectEdits .strict path (modifications rest target) middle) := by
        intro middle hframe hreached
        have hturns' : ∀ key change value, Entries.find? key rest = some change →
            target.find? key = some value →
            ∃ found, middle.find? key = some found ∧ Turns change (fits key) found := by
          intro key change value hchange hvalue
          have hne : key ≠ entry.1 := by
            rintro rfl
            rw [hfresh] at hchange
            cases hchange
          rw [hframe key hne]
          exact hturns key change value (by rwa [Entries.find?_cons, if_neg (Ne.symm hne)]) hvalue
        exact (ih hdistinct hturns').mono fun result hresult => modified_cons hfresh hframe hreached hresult
      rw [modifications, List.filterMap_cons]
      cases hvalue : target.find? entry.1 with
      | none =>
          refine (hrest entries (fun _ _ => rfl) (by rw [Reached, hvalue])).congr ?_
          rw [fitsEntries_cons, hvalue]
          simp
      | some value =>
          obtain ⟨found, hfound, hturn⟩ := hturn value hvalue
          rw [Option.bind_some]
          cases hchange : entry.2 value with
          | none =>
              have hkept := hturn path value
              rw [hchange] at hkept
              refine (hrest entries (fun _ _ => rfl) ?_).congr ?_
              · rw [Reached, hvalue]
                exact ⟨found, hfound, hkept.2⟩
              · rw [fitsEntries_cons, hvalue]
                simp [hkept.1]
          | some operation =>
              have hfirst := gives_modify path hturn hfound hchange
              rw [Option.map_some, applyObjectEdits_cons]
              refine (hfirst.bind fun middle hmiddle => hrest middle hmiddle.1 ?_).congr ?_
              · rw [Reached, hvalue]
                exact hmiddle.2
              · rw [fitsEntries_cons, hvalue]
                simp

/-! ### All edits -/

def goneEntries (changes : Entries Change) (target : Entries Json) : Entries Change :=
  changes.firsts.filter fun entry => !target.has entry.1

def newEntries (changes : Entries Change) (target : Entries Json) : Entries Json :=
  target.firsts.filter fun entry => !changes.firsts.has entry.1

variable {changes : Entries Change} {target : Entries Json}

theorem distinct_goneEntries : (goneEntries changes target).Distinct :=
  (Entries.distinct_firsts changes).filter _

theorem distinct_newEntries : (newEntries changes target).Distinct :=
  (Entries.distinct_firsts target).filter _

theorem has_goneEntries (key : String) :
    (goneEntries changes target).has key ↔ changes.has key ∧ target.find? key = none := by
  rw [goneEntries, Entries.has, Entries.find?_filter (fun key => !target.has key), Entries.find?_firsts,
    ← Entries.has_eq_false_iff]
  cases hkey : target.has key with
  | true => simp
  | false => simp [Entries.has]

theorem find?_newEntries (key : String) :
    (newEntries changes target).find? key = if changes.has key then none else target.find? key := by
  rw [newEntries, Entries.find?_filter (fun key => !changes.firsts.has key), Entries.find?_firsts,
    Entries.has_firsts]
  cases changes.has key <;> rfl

theorem betweenObjects_eq (changes : Entries Change) (target : Entries Json) :
    betweenObjects changes target =
      .editObject
        ((goneEntries changes target).map (fun entry => .remove entry.1) ++
          modifications changes.firsts target ++
          (newEntries changes target).map fun entry => .add entry.1 entry.2) := by
  have hmodify : ∀ entry : String × Change,
      (do
        let operation ← entry.2 (← target.find? entry.1)
        return MapEdit.modify (α := Json) entry.1 operation) =
      (target.find? entry.1).bind fun value =>
        (entry.2 value).map fun operation => .modify entry.1 operation := by
    intro entry
    cases target.find? entry.1 with
    | none => rfl
    | some value =>
        cases hchange : entry.2 value with
        | none => simp [hchange]
        | some operation => simp [hchange]
  rw [betweenObjects, modifications, goneEntries, newEntries]
  simp only [hmodify]

/-- What every key finds once the keys that are gone are removed and the values of common keys are
changed: a value equal to that of the target, if the key is not new. -/
theorem find?_of_modified {middle modified : Entries Json}
    (habsent : ∀ key, changes.find? key = none → entries.find? key = none)
    (hmiddle : ∀ key, middle.find? key =
      if (goneEntries changes target).has key then none else entries.find? key)
    (hmodified : Modified changes.firsts target middle modified) (key : String) :
    if changes.has key then
      (modified.find? key).map Json.canonical = (target.find? key).map Json.canonical
    else modified.find? key = none := by
  have hkey := hmodified key
  rw [Entries.has_firsts] at hkey
  by_cases hhas : changes.has key
  · rw [if_pos hhas] at hkey ⊢
    unfold Reached at hkey
    split at hkey
    · rename_i value hvalue
      obtain ⟨new, hnew, hequal⟩ := hkey
      rw [hnew, hvalue, Option.map_some, Option.map_some, Json.beq_iff.mp hequal]
    · rename_i hvalue
      rw [hkey, hvalue, hmiddle, if_pos ((has_goneEntries key).mpr ⟨hhas, hvalue⟩)]
  · rw [if_neg hhas] at hkey ⊢
    rw [hkey, hmiddle, if_neg fun hgone => hhas ((has_goneEntries key).mp hgone).1]
    exact habsent key (Entries.has_eq_false_iff.mp (by simpa using hhas))

/-- The new entries complete the object. -/
theorem gives_newEntries {modified : Entries Json}
    (hmodified : ∀ key, if changes.has key then
      (modified.find? key).map Json.canonical = (target.find? key).map Json.canonical
      else modified.find? key = none) :
    Gives True (fun result => Json.object result == Json.object target)
      (applyObjectEdits .strict path
        ((newEntries changes target).map fun entry => .add entry.1 entry.2) modified) := by
  have habsent : ∀ key, (newEntries changes target).has key → modified.find? key = none := by
    intro key hkey
    have hkey' := hmodified key
    rw [Entries.has, find?_newEntries] at hkey
    split at hkey
    · cases hkey
    · rename_i hhas
      rwa [if_neg hhas] at hkey'
  obtain ⟨result, hresult, hfind⟩ := applyObjectEdits_additions path distinct_newEntries habsent
  rw [hresult]
  refine .of_ok (Json.object_beq_iff.mpr fun key => ?_)
  have hkey := hmodified key
  rw [hfind, find?_newEntries]
  by_cases hhas : changes.has key
  · rw [if_pos hhas] at hkey
    rw [if_pos hhas, Option.none_or, hkey]
  · rw [if_neg hhas] at hkey
    rw [if_neg hhas, hkey, Option.or_none]

/-- **The edits of an object** can be done on a document with the keys of the first object, if and only
if the values of the common keys can be changed, and then they make the target of it. -/
theorem gives_betweenObjects {fits : String → Json → Prop}
    (hturns : ∀ key change, changes.find? key = some change →
      ∃ found, entries.find? key = some found ∧ Turns change (fits key) found)
    (habsent : ∀ key, changes.find? key = none → entries.find? key = none) :
    Gives (FitsEntries changes fits target) (· == .object target)
      (apply .strict path (betweenObjects changes target) (.object entries)) := by
  have hpresent : ∀ key, (goneEntries changes target).has key → entries.has key := by
    intro key hkey
    obtain ⟨change, hchange⟩ := Entries.has_iff.mp ((has_goneEntries key).mp hkey).1
    obtain ⟨found, hfound, -⟩ := hturns key change hchange
    exact Entries.has_iff.mpr ⟨found, hfound⟩
  obtain ⟨middle, hremovals, hmiddle⟩ :=
    applyObjectEdits_removals path distinct_goneEntries hpresent
  have hcommon : ∀ key change value, changes.firsts.find? key = some change →
      target.find? key = some value →
      ∃ found, middle.find? key = some found ∧ Turns change (fits key) found := by
    intro key change value hchange hvalue
    rw [Entries.find?_firsts] at hchange
    obtain ⟨found, hfound, hturn⟩ := hturns key change hchange
    have hstays : ¬(goneEntries changes target).has key := by
      rw [has_goneEntries, hvalue]
      exact fun hboth => by cases hboth.2
    exact ⟨found, (hmiddle key).trans ((if_neg hstays).trans hfound), hturn⟩
  have hmodifications := gives_modifications path (Entries.distinct_firsts changes) hcommon
  have hboth := hmodifications.bind fun modified hmodified =>
    gives_newEntries path (find?_of_modified habsent hmiddle hmodified)
  have hfits : FitsEntries changes.firsts fits target ↔ FitsEntries changes fits target := by
    unfold FitsEntries
    simp only [Entries.has_firsts]
  rw [betweenObjects_eq, apply, applyObjectEdits_append, applyObjectEdits_append, hremovals]
  change Gives _ _ (((applyObjectEdits _ _ _ middle).bind _).map _)
  exact ((hboth.congr (and_iff_left trivial)).map fun result hresult => hresult).congr hfits

end JsonEdit.Operation
