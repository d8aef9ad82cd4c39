import JsonEdit.Json.Schema
import JsonEdit.Proofs.Json.Focus
import JsonEdit.Proofs.Number.Alike
import JsonEdit.Proofs.Outcome

/-!
# Typed values are read back, and failures are located

A value of a type is read back from the tree that writes it. Null stands for an absent optional value, so
this takes that nothing else of the type is written as null, and that is why an optional value must not
itself be optional.

A tree that is not read fails at one part of it. The path of the fault leads to this part through the tree
and to the type that is expected there through the type, and the part alone fails for the same reason. Each
container puts one step in front of the path; an optional value puts none, because it is not a container.
Where a key repeats, the entry that is read is the first one, and a path leads to the first one too.
-/

namespace JsonEdit

namespace IntegerKind

variable {kind : IntegerKind}

def coded : List IntegerKind := [i8, i16, i32, i64, u8, u16, u32, u64, usize]

theorem bounds_of_mem_coded : ∀ kind ∈ coded, -2 ^ 64 < kind.least ∧ kind.greatest < 2 ^ 64 := by
  decide

/-- An integer with a form as a tree has a decimal. -/
theorem natAbs_lt_of_mem_coded (hkind : kind ∈ coded) (n : kind.Value) : n.val.natAbs < pow2 96 := by
  obtain ⟨hleast, hgreatest⟩ := bounds_of_mem_coded kind hkind
  obtain ⟨n, hn⟩ := n
  rw [holds, Bool.and_eq_true, decide_eq_true_eq, decide_eq_true_eq] at hn
  have hbound : n.natAbs < 2 ^ 64 := by
    change n.natAbs < 18446744073709551616
    change -18446744073709551616 < kind.least at hleast
    change kind.greatest < 18446744073709551616 at hgreatest
    omega
  exact hbound.trans (by decide)

/-- The widest integers with a form as trees that have a sign like those of the kind, or none. -/
def widest (kind : IntegerKind) : IntegerKind := if kind.signed then i64 else u64

theorem bounds_widest : ∀ kind ∈ coded,
    kind.widest.least ≤ kind.least ∧ kind.greatest ≤ kind.widest.greatest := by
  decide

/-- A number may be narrowed to the widest integers first, and then to those of the kind. -/
theorem integerOf?_eq_bind_widest (hkind : kind ∈ coded) (number : Number) :
    number.integerOf? kind =
      (number.integerOf? kind.widest).bind fun wide => kind.value? wide.val := by
  obtain ⟨hleast, hgreatest⟩ := bounds_widest kind hkind
  rw [Number.integerOf?, Number.integerOf?, Option.bind_assoc]
  refine congrArg _ (funext fun n => ?_)
  cases hwide : kind.widest.value? n with
  | some wide =>
      rw [Option.bind_some, value?_eq_some_iff.mp hwide]
  | none =>
      -- what is beyond the widest integers is beyond the kind
      unfold value? at hwide ⊢
      refine dif_neg fun hn => ?_
      have houtside : ¬kind.widest.holds n := by
        intro hfits
        rw [dif_pos hfits] at hwide
        cases hwide
      apply houtside
      rw [holds, Bool.and_eq_true, decide_eq_true_eq, decide_eq_true_eq] at hn ⊢
      omega

end IntegerKind

namespace Schema

variable {schema of : Schema} {tree : Json} {fault : Fault}

/-- The types of booleans, integers, strings and numbers, and of lists, of values by key and of optional
values of such a type. An optional value is not itself optional. -/
inductive Native : Schema → Prop
  | bool : Native .bool
  | integer {kind : IntegerKind} (hkind : kind ∈ IntegerKind.coded) : Native (.integer kind)
  | string : Native .string
  | number : Native .number
  | list {of : Schema} (hof : of.Native) : Native (.list of)
  | map {of : Schema} (hof : of.Native) : Native (.map of)
  | option {of : Schema} (hof : of.Native) (hsingle : ∀ inner, of ≠ .option inner) : Native (.option of)

/-! ### What is written is read back -/

/-- Only an absent optional value is written as null. -/
theorem Native.encode_ne_null (hnative : schema.Native) (hsingle : ∀ inner, schema ≠ .option inner)
    (value : schema.Value) : schema.encode value ≠ .null := by
  cases hnative with
  | option => exact absurd rfl (hsingle _)
  | _ => exact Json.noConfusion

theorem decode_option_of_ne_null (of : Schema) (hne : tree ≠ .null) :
    (Schema.option of).decode tree = (of.decode tree).map some := by
  cases tree with
  | null => exact absurd rfl hne
  | _ => rfl

theorem decodeItems_map {α : Type} {encode : α → Json} {decode : Json → Except Fault α}
    {values : List α} (hvalues : ∀ value ∈ values, decode (encode value) = .ok value)
    (position : Nat) :
    decodeItems decode position (values.map encode) = .ok values := by
  induction values generalizing position with
  | nil => rfl
  | cons value rest ih =>
      obtain ⟨hvalue, hrest⟩ := List.forall_mem_cons.mp hvalues
      rw [List.map_cons, decodeItems]
      simp only [hvalue, ih hrest]
      rfl

theorem decodeEntries_map {α : Type} {encode : α → Json} {decode : Json → Except Fault α}
    {entries : Entries α} (hentries : ∀ entry ∈ entries, decode (encode entry.2) = .ok entry.2) :
    decodeEntries decode (entries.map fun entry => (entry.1, encode entry.2)) = .ok entries := by
  induction entries with
  | nil => rfl
  | cons entry rest ih =>
      obtain ⟨hentry, hrest⟩ := List.forall_mem_cons.mp hentries
      rw [List.map_cons, decodeEntries]
      simp only [hentry, ih hrest]
      rfl

end Schema

namespace SortedEntries

variable {α : Type}

theorem distinct (sorted : SortedEntries α) : sorted.entries.Distinct := by
  refine sorted.ascending.imp ?_
  intro first second hlt heq
  exact String.lt_irrefl _ (heq ▸ hlt)

/-- Entries with ascending keys are in order, and none of them is left out. -/
theorem ofEntries_entries (sorted : SortedEntries α) : ofEntries sorted.entries = sorted := by
  have hsorted : sorted.entries.Pairwise fun first second => first.1 ≤ second.1 := by
    refine sorted.ascending.imp ?_
    intro first second hlt
    exact String.not_lt.mp (String.lt_asymm hlt)
  obtain ⟨entries, hascending⟩ := sorted
  have hentries : entries.firsts.sorted = entries := by
    rw [Entries.Distinct.firsts_eq (distinct ⟨entries, hascending⟩), Entries.sorted_eq_self hsorted]
  simp only [ofEntries, hentries]

end SortedEntries

namespace Schema

variable {schema of : Schema} {tree : Json} {fault : Fault}

/-- **A value of a type is read back** from the tree that writes it. -/
theorem Native.decode_encode (hnative : schema.Native) (value : schema.Value) :
    schema.decode (schema.encode value) = .ok value := by
  induction hnative with
  | bool => rfl
  | string => rfl
  | number => rfl
  | @integer kind hkind =>
      have hinteger := Number.integerOf?_ofInt (IntegerKind.natAbs_lt_of_mem_coded hkind value)
        value.property
      simp only [encode, decode, numberIn, Except.bind, hinteger]
  | @list of hof ih => exact decodeItems_map (fun item _ => ih item) 0
  | @map of hof ih =>
      obtain ⟨entries, hascending⟩ := value
      have hdistinct : Entries.Distinct (entries.map fun entry => (entry.1, of.encode entry.2)) := by
        rw [Entries.distinct_iff_nodup, List.map_map]
        exact Entries.distinct_iff_nodup.mp (SortedEntries.distinct ⟨entries, hascending⟩)
      have hentries : decodeEntries of.decode
          (entries.map fun entry => (entry.1, of.encode entry.2)) = .ok entries :=
        decodeEntries_map fun entry _ => ih entry.2
      calc (Schema.map of).decode ((Schema.map of).encode ⟨entries, hascending⟩)
          = (decodeEntries of.decode (Entries.firsts
              (entries.map fun entry => (entry.1, of.encode entry.2)))).map SortedEntries.ofEntries := rfl
        _ = .ok (SortedEntries.ofEntries entries) := by
            rw [hdistinct.firsts_eq, hentries]
            rfl
        _ = .ok ⟨entries, hascending⟩ := by
            rw [SortedEntries.ofEntries_entries ⟨entries, hascending⟩]
  | @option of hof hsingle ih =>
      cases value with
      | none => rfl
      | some value =>
          have hne := hof.encode_ne_null hsingle value
          calc (Schema.option of).decode (of.encode value)
              = (of.decode (of.encode value)).map some := decode_option_of_ne_null of hne
            _ = .ok (some value) := by
                rw [ih value]
                rfl

/-! ### What is not read -/

def part? : Schema → Path → Option Schema
  | schema, [] => some schema
  | .option of, step :: rest => of.part? (step :: rest)
  | .list of, .index _ :: rest => of.part? rest
  | .map of, .field _ :: rest => of.part? rest
  | _, _ => none

/-- The fault is about one part of the tree: alone, this part is not read as a value of the type that is
expected there, for the same reason. -/
def Locates (schema : Schema) (tree : Json) (fault : Fault) : Prop :=
  fault.path.Concrete ∧ ∃ expected found, schema.part? fault.path = some expected ∧
    tree.valueAt? fault.path = some found ∧ expected.decode found = .error ⟨fault.reason, []⟩

theorem part?_root (schema : Schema) : schema.part? [] = some schema := by
  cases schema <;> rfl

/-- A fault of the whole tree locates itself. -/
theorem locates_root {reason : Reason} (hdecode : schema.decode tree = .error ⟨reason, []⟩) :
    schema.Locates tree ⟨reason, []⟩ :=
  ⟨List.forall_mem_nil _, schema, tree, part?_root schema, rfl, hdecode⟩

/-- What is located in a child is located in the container, one step further away. -/
theorem Locates.within {child : Json} {step : Step} (hlocates : of.Locates child fault)
    (hconcrete : step.isConcrete) (hchild : tree.child? step = some child)
    (hpart : ∀ rest, schema.part? (step :: rest) = of.part? rest) :
    schema.Locates tree (fault.within step) := by
  obtain ⟨hpath, expected, found, hexpected, hfound, hdecode⟩ := hlocates
  refine ⟨Path.concrete_cons.mpr ⟨hconcrete, hpath⟩, expected, found, ?_, ?_, hdecode⟩
  · rw [Fault.within, hpart, hexpected]
  · change (tree.child? step).bind (Json.valueAt? · fault.path) = some found
    rw [hchild, Option.bind_some, hfound]

/-- An optional value that is there fails as what it is. -/
theorem Locates.option (hlocates : of.Locates tree fault)
    (hdecode : (Schema.option of).decode tree = .error fault) :
    (Schema.option of).Locates tree fault := by
  obtain ⟨reason, path⟩ := fault
  cases path with
  | nil => exact locates_root hdecode
  | cons step rest => exact hlocates

theorem exists_of_decodeItems_eq_error {α : Type} {decode : Json → Except Fault α} {position : Nat}
    {items : List Json} (hitems : decodeItems decode position items = .error fault) :
    ∃ i item inner, items[i]? = some item ∧ decode item = .error inner ∧
      inner.within (.index (position + i)) = fault := by
  induction items generalizing position with
  | nil => cases hitems
  | cons item rest ih =>
      rw [decodeItems] at hitems
      split at hitems
      · rename_i inner hinner
        exact ⟨0, item, inner, rfl, hinner, Except.error.inj hitems⟩
      · obtain ⟨i, other, inner, hother, hinner, hfault⟩ := ih (except_map_eq_error hitems)
        refine ⟨i + 1, other, inner, hother, hinner, ?_⟩
        rw [← hfault, Nat.add_assoc, Nat.add_comm 1]

theorem exists_of_decodeEntries_eq_error {α : Type} {decode : Json → Except Fault α}
    {entries : Entries Json} (hentries : decodeEntries decode entries = .error fault) :
    ∃ entry ∈ entries, ∃ inner, decode entry.2 = .error inner ∧
      inner.within (.field entry.1) = fault := by
  induction entries with
  | nil => cases hentries
  | cons entry rest ih =>
      rw [decodeEntries] at hentries
      split at hentries
      · rename_i inner hinner
        exact ⟨entry, List.mem_cons_self, inner, hinner, Except.error.inj hentries⟩
      · obtain ⟨other, hother, inner, hinner, hfault⟩ := ih (except_map_eq_error hentries)
        exact ⟨other, List.mem_cons_of_mem _ hother, inner, hinner, hfault⟩

theorem path_of_numberIn (hnumber : numberIn tree = .error fault) : fault.path = [] := by
  cases tree with
  | number value => cases hnumber
  | _ =>
      cases hnumber
      rfl

/-- A fault without a path is about the whole tree. -/
theorem locates_of_path (hpath : fault.path = []) (hdecode : schema.decode tree = .error fault) :
    schema.Locates tree fault := by
  obtain ⟨reason, path⟩ := fault
  obtain rfl : path = [] := hpath
  exact locates_root hdecode

/-- **A tree that is not read fails at one part of it.** -/
theorem locates_of_decode_eq_error (hdecode : schema.decode tree = .error fault) :
    schema.Locates tree fault := by
  induction schema generalizing tree fault with
  | bool | string =>
      refine locates_of_path ?_ hdecode
      cases tree <;> cases hdecode <;> rfl
  | number => exact locates_of_path (path_of_numberIn hdecode) hdecode
  | float => exact locates_of_path (path_of_numberIn (except_map_eq_error hdecode)) hdecode
  | json => cases hdecode
  | decimal | integer =>
      refine locates_of_path ?_ hdecode
      cases tree with
      | number value =>
          simp only [decode, numberIn, Except.bind] at hdecode
          split at hdecode
          · cases hdecode
          · cases hdecode
            rfl
      | _ =>
          cases hdecode
          rfl
  | option of ih =>
      by_cases hnull : tree = .null
      · subst hnull
        cases hdecode
      · have hof := hdecode
        rw [decode_option_of_ne_null of hnull] at hof
        exact (ih (except_map_eq_error hof)).option hdecode
  | list of ih =>
      cases tree with
      | array items =>
          obtain ⟨i, item, inner, hitem, hinner, rfl⟩ := exists_of_decodeItems_eq_error hdecode
          have hchild : (Json.array items).child? (.index (0 + i)) = some item := by
            rw [Nat.zero_add]
            exact hitem
          exact (ih hinner).within rfl hchild fun _ => rfl
      | _ =>
          cases hdecode
          exact locates_root rfl
  | map of ih =>
      cases tree with
      | object entries =>
          obtain ⟨entry, hentry, inner, hinner, rfl⟩ :=
            exists_of_decodeEntries_eq_error (except_map_eq_error hdecode)
          have hchild : (Json.object entries).child? (.field entry.1) = some entry.2 := by
            have hfound := (Entries.distinct_firsts entries).find?_of_mem hentry
            rw [Entries.find?_firsts] at hfound
            exact hfound
          exact (ih hinner).within rfl hchild fun _ => rfl
      | _ =>
          cases hdecode
          exact locates_root rfl

/-- **Typed values are read back, and what is not read is located.** A value of any native type is read
back from the tree that writes it. If a tree is not read as a value of a type, the path of the fault leads
to exactly one value in the tree, and this value alone is not read as a value of the type that is expected
there, for the reason that is given. -/
theorem decode_roundTrip (schema : Schema) :
    (schema.Native → ∀ value : schema.Value, schema.decode (schema.encode value) = .ok value) ∧
    ∀ (tree : Json) (fault : Fault), schema.decode tree = .error fault →
      ∃ expected found, schema.part? fault.path = some expected ∧ tree.get fault.path = [found] ∧
        expected.decode found = .error ⟨fault.reason, []⟩ := by
  refine ⟨Native.decode_encode, ?_⟩
  intro tree fault hdecode
  obtain ⟨hconcrete, expected, found, hexpected, hfound, hfails⟩ := locates_of_decode_eq_error hdecode
  refine ⟨expected, found, hexpected, ?_, hfails⟩
  rw [Json.get_of_single hconcrete.hasWildcards, hfound]
  rfl

/-- Small integers by key, where one is absent, one is too large and a key repeats. -/
theorem decode_roundTrip_tooLarge :
    let schema : Schema := .map (.list (.option (.integer .u8)))
    let value : schema.Value := ⟨[("a", [some ⟨7, by decide⟩, none]), ("b", [])], by decide⟩
    let large : Json := .number { whole := 300 }
    let tree : Json := .object [("xs", .array [.null, large]), ("xs", .null)]
    let fault : Fault := ⟨.doesNotFit { whole := 300 } "u8", [.field "xs", .index 1]⟩
    schema.Native ∧ schema.decode (schema.encode value) = .ok value ∧
      schema.decode tree = .error fault ∧ tree.get fault.path = [large] ∧
        (Schema.option (.integer .u8)).decode large = .error ⟨fault.reason, []⟩ := by
  intro schema value large tree fault
  have hnative : schema.Native := .map (.list (.option (.integer (by decide)) nofun))
  have hdecode : schema.decode tree = .error fault := by rfl
  obtain ⟨expected, found, hexpected, hget, hfails⟩ := (decode_roundTrip schema).2 tree fault hdecode
  have hfound : tree.get fault.path = [large] := by rfl
  cases hget.symm.trans hfound
  cases hexpected
  exact ⟨hnative, (decode_roundTrip schema).1 hnative value, hdecode, hfound, hfails⟩

end Schema

end JsonEdit
