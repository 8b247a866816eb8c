import Mathlib.Data.List.Nodup
import Supermartingale.Input
import Supermartingale.Proofs.Except

/-!
# Merging files

Merging the files of one format finds every field that one of them gives, whatever their order. Across the formats
whole sections count: a section of a YAML file hides the one of the JSON files.
-/

namespace Supermartingale

open List

/-! ## Fields by name -/

theorem Key.same_text {k : Key} {s : String} : k.same (.text s) = true ↔ k = .text s := by
  cases k <;> simp [Key.same, Key.number?]

namespace Value

variable {name : String} {names : List String} {fields : Fields}

def named (fields : List (String × Value)) : Fields := fields.map fun (k, v) => (.text k, v)

theorem eq_of_isText (t : String) (v : Value) (same : v.isText t) : v = .text t := by
  cases v <;> simp_all [isText]

theorem find?_cons_self (name : String) (v : Value) (fields : Fields) :
    find? ((.text name, v) :: fields) name = some v := by
  simp [find?, Key.same]

theorem find?_cons_of_ne {k : Key} (different : k ≠ .text name) (v : Value) (fields : Fields) :
    find? ((k, v) :: fields) name = find? fields name := by
  have other : k.same (.text name) = false := by
    rw [← Bool.not_eq_true, Key.same_text]
    exact different
  simp [find?, other]

theorem find?_append (fields more : Fields) (name : String) :
    find? (fields ++ more) name = (find? fields name).or (find? more name) := by
  simp [find?, List.find?_append, Option.map_or]

theorem find?_eq_none_iff (keys : fields.map Prod.fst = names.map Key.text)
    (name : String) : find? fields name = none ↔ name ∉ names := by
  have listed : Key.text name ∈ fields.map Prod.fst ↔ name ∈ names := by simp [keys]
  rw [← listed, find?, Option.map_eq_none_iff, List.find?_eq_none, mem_map]
  simp only [Key.same_text, not_exists, not_and]

theorem find?_named {fields : List (String × Value)} (distinct : (fields.map Prod.fst).Nodup)
    {v : Value} : find? (named fields) name = some v ↔ (name, v) ∈ fields := by
  induction fields with
  | nil => simp [named, find?]
  | cons field fields ih =>
    obtain ⟨k, w⟩ := field
    obtain ⟨new, others⟩ := nodup_cons.mp distinct
    by_cases same : k = name
    · subst same
      have absent : (k, v) ∉ fields := fun mem => new (mem_map.mpr ⟨_, mem, rfl⟩)
      rw [named, map_cons, find?_cons_self]
      simp [absent, eq_comm]
    · rw [named, map_cons, find?_cons_of_ne (by simpa using same)]
      simpa [named, Ne.symm same] using ih others

theorem keys_setField_of_mem (present : .text name ∈ fields.map Prod.fst)
    (v : Value) : (setField fields (.text name) v).map Prod.fst = fields.map Prod.fst := by
  have found : fields.any (fun field => field.1.same (.text name)) := by
    obtain ⟨field, mem, same⟩ := mem_map.mp present
    exact any_eq_true.mpr ⟨field, mem, Key.same_text.mpr same⟩
  exact keys_upsert (Key.same · (.text name)) found

theorem find?_setField (fields : Fields) (key name : String) (v : Value) :
    find? (setField fields (.text key) v) name = if name = key then some v else find? fields name := by
  change ((upsert (Key.same · (.text key)) _ v fields).find? _).map _ = _
  by_cases wanted : name = key
  · rw [if_pos wanted, wanted]
    exact find?_upsert_self (Key.same · (.text key)) (Key.same_text.mpr rfl)
  · rw [if_neg wanted]
    refine congrArg _ (find?_upsert_of_ne (Key.same · (.text key)) (Key.same · (.text name))
      (Key.same_text.mpr rfl) fun k same => ?_)
    rw [Key.same_text.mp same, ← Bool.not_eq_true, Key.same_text]
    simpa using Ne.symm wanted

theorem find?_setFields {more : Fields} (keys : more.map Prod.fst = names.map Key.text)
    (distinct : names.Nodup) (fields : Fields) (name : String) :
    find? (setFields fields more) name = (find? more name).or (find? fields name) := by
  induction more generalizing names fields with
  | nil => rfl
  | cons field more ih =>
    obtain ⟨k, v⟩ := field
    cases names with
    | nil => simp at keys
    | cons first names =>
      simp only [map_cons, List.cons.injEq] at keys
      obtain ⟨rfl, rest⟩ := keys
      obtain ⟨new, others⟩ := nodup_cons.mp distinct
      rw [setFields, foldl_cons]
      refine (ih rest others _).trans ?_
      rw [find?_setField]
      by_cases same : name = first
      · subst same
        rw [(find?_eq_none_iff rest name).mpr new, find?_cons_self, if_pos rfl]
        rfl
      · rw [if_neg same, find?_cons_of_ne (by simpa using Ne.symm same)]

theorem keys_named (fields : List (String × Value)) :
    (named fields).map Prod.fst = (fields.map Prod.fst).map Key.text := by
  simp [named, Function.comp_def]

end Value

namespace Input

abbrev Entry := (String × String) × Value

structure Source where
  path : String
  sections : List (String × List (String × Value))

namespace Source

def value (x : Source) : Value := .record (x.sections.map fun (s, fields) => (s, .record fields))

def names (x : Source) : List String := x.sections.map Prod.fst

def entries (s : String) (fields : List (String × Value)) : List Entry := fields.map fun (k, v) => ((s, k), v)

def given (x : Source) : List Entry := x.sections.flatMap fun (s, fields) => entries s fields

end Source

open Source

def sectionsOf (xs : List Source) : List String := xs.flatMap Source.names

def givenBy (xs : List Source) : List Entry := xs.flatMap given

/-! ## Files of one format -/

/-- Sections by their names, with fields that have been given. -/
structure Reflects (merged : Fields) (names : List String) (given : List Entry) : Prop where
  keys : merged.map Prod.fst = names.map Key.text
  distinct : names.Nodup
  sections : ∀ s ∈ names, ∃ fields, Value.find? merged s = some (.object fields) ∧
    ∀ k v, Value.find? fields k = some v ↔ ((s, k), v) ∈ given
  named : ∀ e ∈ given, e.1.1 ∈ names

theorem reflects_nil : Reflects [] [] [] := ⟨rfl, nodup_nil, by simp, by simp⟩

variable {fields : List (String × Value)} {v : Value} {s t k : String}

theorem mem_entries : ((t, k), v) ∈ entries s fields ↔ t = s ∧ (k, v) ∈ fields := by
  simp [entries, eq_comm, and_comm, and_assoc]

/-- Fields of a section of which none has been given. -/
structure Fresh (given : List Entry) (s : String) (fields : List (String × Value)) : Prop where
  distinct : (fields.map Prod.fst).Nodup
  unused : ∀ k v, (k, v) ∈ fields → ∀ w, ((s, k), w) ∉ given

theorem fresh_of_nodup {given : List Entry} {s : String}
    (once : ((given ++ entries s fields).map Prod.fst).Nodup) : Fresh given s fields := by
  rw [map_append, nodup_append] at once
  obtain ⟨-, own, apart⟩ := once
  have pairs : (entries s fields).map Prod.fst = (fields.map Prod.fst).map (Prod.mk s) := by
    simp [entries, Function.comp_def]
  refine ⟨List.Nodup.of_map _ (pairs ▸ own), fun k v mem w old => ?_⟩
  exact apart _ (mem_map_of_mem old) _ (mem_map_of_mem (mem_entries.mpr ⟨rfl, mem⟩)) rfl

/-- A section is set, and the others stay. -/
theorem Reflects.setSection {merged merged' : Fields} {names names' : List String} {given : List Entry}
    (reflects : Reflects merged names given) (new : Fields)
    (keys : merged'.map Prod.fst = names'.map Key.text) (distinct : names'.Nodup)
    (listed : ∀ t, t ∈ names' ↔ t ∈ names ∨ t = s)
    (found : ∀ t, Value.find? merged' t = if t = s then some (.object new) else Value.find? merged t)
    (holds : ∀ k v, Value.find? new k = some v ↔ ((s, k), v) ∈ given ∨ (k, v) ∈ fields) :
    Reflects merged' names' (given ++ entries s fields) := by
  refine ⟨keys, distinct, fun t mem => ?_, fun e mem => (listed _).mpr ?_⟩
  · rw [found]
    by_cases wanted : t = s
    · refine ⟨new, if_pos wanted, fun k v => ?_⟩
      simp [holds, mem_entries, wanted]
    · obtain ⟨fields', found', holds'⟩ := reflects.sections t (((listed t).mp mem).resolve_right wanted)
      refine ⟨fields', by rw [if_neg wanted, found'], fun k v => ?_⟩
      simp [holds', mem_entries, wanted]
  · rcases mem_append.mp mem with before | now
    · exact .inl (reflects.named e before)
    · exact .inr ((mem_entries (t := e.1.1) (k := e.1.2)).mp now).1

/-- A step that adds sections with their fields, provided that no field is given twice. -/
def Adds (step : Fields → Except Error Fields) (sections : List String) (entries : List Entry) : Prop :=
  ∀ {merged names given}, Reflects merged names given → ((given ++ entries).map Prod.fst).Nodup →
    ∃ merged' names', step merged = .ok merged' ∧ Reflects merged' names' (given ++ entries) ∧
      ∀ s, s ∈ names' ↔ s ∈ names ∨ s ∈ sections

theorem adds_mergeField (s : String) (fields : List (String × Value)) :
    Adds (mergeField · (.text s, .record fields)) [s] (entries s fields) := by
  intro merged names given reflects once
  have fresh := fresh_of_nodup once
  by_cases known : s ∈ names
  · obtain ⟨old, found, holds⟩ := reflects.sections s known
    obtain ⟨⟨key, was⟩, first, same⟩ := Option.map_eq_some_iff.mp found
    refine ⟨Value.setField merged (.text s) (.object (Value.setFields old (Value.named fields))), names, ?_,
      reflects.setSection _ ?_ reflects.distinct (fun t => ⟨.inl, fun either => either.elim id (· ▸ known)⟩)
        (Value.find?_setField merged s · _) fun k v => ?_, fun t => by simpa using fun same => same ▸ known⟩
    · simp only at same
      simp only [mergeField, first, same]
      rfl
    · rw [Value.keys_setField_of_mem (by rw [reflects.keys]; exact mem_map_of_mem known), reflects.keys]
    · rw [Value.find?_setFields (Value.keys_named fields) fresh.distinct, Option.or_eq_some_iff,
        Value.find?_named fresh.distinct, holds]
      constructor
      · rintro (mem | ⟨-, mem⟩)
        exacts [.inr mem, .inl mem]
      · rintro (mem | mem)
        · refine .inr ⟨(Value.find?_eq_none_iff (Value.keys_named fields) k).mpr fun listed => ?_, mem⟩
          obtain ⟨⟨k', w⟩, twice, rfl⟩ := mem_map.mp listed
          exact fresh.unused k' w twice v mem
        · exact .inl mem
  · have absent : Value.find? merged s = none := (Value.find?_eq_none_iff reflects.keys s).mpr known
    refine ⟨merged ++ [(.text s, .record fields)], names ++ [s], ?_,
      reflects.setSection (Value.named fields) (by simp [reflects.keys])
        (nodup_append.mpr ⟨reflects.distinct, nodup_singleton s, ?_⟩) (by simp) (fun t => ?_) fun k v => ?_, by simp⟩
    · have first := Option.map_eq_none_iff.mp absent
      simp only [mergeField, first]
    · rintro t mem _ last rfl
      exact known (mem_singleton.mp last ▸ mem)
    · rw [Value.find?_append]
      by_cases wanted : t = s
      · rw [wanted, absent, Value.find?_cons_self, if_pos rfl]
        rfl
      · rw [Value.find?_cons_of_ne (by simpa using Ne.symm wanted), if_neg wanted]
        exact Option.or_none
    · rw [Value.find?_named fresh.distinct]
      exact ⟨.inr, fun either => either.resolve_left fun old => known (reflects.named _ old)⟩

theorem adds_foldlM {α β : Type} {step : Fields → β → Except Error Fields} {key : α → β} {sections : α → List String}
    {entries : α → List Entry} (xs : List α) (adds : ∀ x ∈ xs, Adds (step · (key x)) (sections x) (entries x)) :
    Adds ((xs.map key).foldlM step) (xs.flatMap sections) (xs.flatMap entries) := by
  induction xs with
  | nil => exact fun {merged names given} reflects _ => ⟨merged, names, rfl, by simpa using reflects, by simp⟩
  | cons x xs ih =>
    intro merged names given reflects once
    obtain ⟨first, others⟩ := forall_mem_cons.mp adds
    rw [flatMap_cons, ← append_assoc] at once ⊢
    have start : ((given ++ entries x).map Prod.fst).Nodup := by
      rw [map_append] at once
      exact once.of_append_left
    obtain ⟨merged₁, names₁, step, reflects₁, listed₁⟩ := first reflects start
    obtain ⟨merged₂, names₂, steps, reflects₂, listed₂⟩ := ih others reflects₁ once
    refine ⟨merged₂, names₂, foldlM_cons.trans (bind_eq_ok.mpr ⟨merged₁, step, steps⟩), reflects₂, fun s => ?_⟩
    rw [listed₂, listed₁, flatMap_cons, mem_append, or_assoc]

section

variable {files : Files} {read : String → Except Error Value}

theorem adds_mergeFile {x : Source} (there : ∃ text, files.read x.path = .ok text ∧ read text = .ok x.value) :
    Adds (mergeFile files read · x.path) x.names x.given := by
  intro merged names given reflects once
  obtain ⟨text, found, decoded⟩ := there
  obtain ⟨merged', names', steps, reflects', listed⟩ :=
    adds_foldlM x.sections (fun field _ => adds_mergeField field.1 field.2) reflects once
  refine ⟨merged', names', ?_, reflects', by simpa [Source.names, map_eq_flatMap] using listed⟩
  refine bind_eq_ok.mpr ⟨text, found, bind_eq_ok.mpr ⟨_, decoded, ?_⟩⟩
  simpa [value, Value.record, Function.comp_def] using steps

theorem exists_mergeFiles (xs : List Source)
    (there : ∀ x ∈ xs, ∃ text, files.read x.path = .ok text ∧ read text = .ok x.value)
    (once : ((givenBy xs).map Prod.fst).Nodup) :
    ∃ merged names, mergeFiles files read (xs.map path) = .ok merged ∧ Reflects merged names (givenBy xs) ∧
      ∀ s, s ∈ names ↔ s ∈ sectionsOf xs := by
  simpa [mergeFiles, givenBy, sectionsOf] using
    adds_foldlM xs (fun x mem => adds_mergeFile (there x mem)) reflects_nil once

end

/-! ## Files of both formats -/

theorem isYaml_eq_false {p : String} (json : isJson p) : isYaml p = false := by
  unfold isJson isYaml Path.endsWith at *
  cases ending : p.toList.reverse with
  | nil => rfl
  | cons c cs =>
    rw [ending] at json
    have last : c = 'n' := by
      by_contra other
      revert json
      simp [Text.dropLeading?, Ne.symm other]
    subst last
    rfl

/-- A file is there and its format is read as what it says. -/
def Source.IsIn (files : Files) (x : Source) : Prop :=
  ∃ text, files.read x.path = .ok text ∧
    (isJson x.path ∧ Json.read text = .ok x.value ∨ isYaml x.path ∧ Yaml.read text = .ok x.value)

def jsonOf (xs : List Source) : List Source := xs.filter fun x => isJson x.path

def yamlOf (xs : List Source) : List Source := xs.filter fun x => isYaml x.path

section

variable {files : Files} {xs : List Source} {names : List String} {s : String} {m : Fields} {v : Value} {e : Entry}

theorem Source.IsIn.isYaml_eq {x : Source} (there : x.IsIn files) : isYaml x.path = !isJson x.path := by
  obtain ⟨text, -, ⟨json, -⟩ | ⟨yaml, -⟩⟩ := there
  · rw [isYaml_eq_false json, json]
    rfl
  · cases json : isJson x.path with
    | false => exact yaml
    | true => exact Bool.noConfusion ((isYaml_eq_false json).symm.trans yaml)

theorem json_there (there : ∀ x ∈ xs, x.IsIn files) :
    ∀ x ∈ jsonOf xs, ∃ text, files.read x.path = .ok text ∧ Json.read text = .ok x.value := by
  intro x mem
  obtain ⟨listed, json⟩ := mem_filter.mp mem
  obtain ⟨text, found, ⟨-, decoded⟩ | ⟨yaml, -⟩⟩ := there x listed
  · exact ⟨text, found, decoded⟩
  · simp [isYaml_eq_false json] at yaml

theorem yaml_there (there : ∀ x ∈ xs, x.IsIn files) :
    ∀ x ∈ yamlOf xs, ∃ text, files.read x.path = .ok text ∧ Yaml.read text = .ok x.value := by
  intro x mem
  obtain ⟨listed, yaml⟩ := mem_filter.mp mem
  obtain ⟨text, found, ⟨json, -⟩ | ⟨-, decoded⟩⟩ := there x listed
  · simp [isYaml_eq_false json] at yaml
  · exact ⟨text, found, decoded⟩

theorem perm_formats (there : ∀ x ∈ xs, x.IsIn files) : (jsonOf xs ++ yamlOf xs).Perm xs := by
  rw [yamlOf, filter_congr fun x mem => (there x mem).isYaml_eq]
  exact filter_append_perm _ xs

/-- A field that is found: one of a YAML file, or one of a JSON file whose section is in no YAML file. -/
def Shown (xs : List Source) (e : Entry) : Prop :=
  e ∈ givenBy (yamlOf xs) ∨ e ∈ givenBy (jsonOf xs) ∧ e.1.1 ∉ sectionsOf (yamlOf xs)

/-- The sections of some files, with the fields that are found. -/
structure Merges (xs : List Source) (m : Fields) : Prop where
  absent : ∀ s, Value.find? m s = none ↔ s ∉ fieldNames ∧ s ∉ sectionsOf xs
  sections : ∀ s v, Value.find? m s = some v →
    ∃ fields, v = .object fields ∧ ∀ k w, Value.find? fields k = some w ↔ Shown xs ((s, k), w)

theorem find?_start :
    Value.find? (fieldNames.map fun n => (Key.text n, Value.object [])) s = some v ↔
      s ∈ fieldNames ∧ v = .object [] := by
  have start : (fieldNames.map fun n => (Key.text n, Value.object [])) =
      Value.named (fieldNames.map fun n => (n, .object [])) := by simp [Value.named]
  rw [start, Value.find?_named (by simp [Function.comp_def]; decide)]
  simp [eq_comm]

theorem mem_sectionsOf_iff (there : ∀ x ∈ xs, x.IsIn files) (s : String) :
    s ∈ sectionsOf xs ↔ s ∈ sectionsOf (jsonOf xs) ∨ s ∈ sectionsOf (yamlOf xs) := by
  rw [← mem_append, sectionsOf, sectionsOf, sectionsOf, ← flatMap_append]
  exact ((perm_formats there).flatMap_right _).mem_iff.symm

theorem perm_given (there : ∀ x ∈ xs, x.IsIn files) :
    (givenBy (jsonOf xs) ++ givenBy (yamlOf xs)).Perm (givenBy xs) := by
  rw [givenBy, givenBy, givenBy, ← flatMap_append]
  exact (perm_formats there).flatMap_right _

theorem paths_filter (format : String → Bool) (xs : List Source) :
    (xs.map path).filter format = (xs.filter fun x => format x.path).map path := by
  rw [filter_map]
  rfl

theorem Reflects.unlisted {given : List Entry} (reflects : Reflects m names given)
    (absent : Value.find? m s = none) (k : String) (v : Value) : ((s, k), v) ∉ given :=
  fun mem => (Value.find?_eq_none_iff reflects.keys s).mp absent (reflects.named _ mem)

theorem Reflects.section_eq {given : List Entry} (reflects : Reflects m names given)
    (found : Value.find? m s = some v) :
    s ∈ names ∧ ∃ fields, v = .object fields ∧ ∀ k w, Value.find? fields k = some w ↔ ((s, k), w) ∈ given := by
  have listed : s ∈ names := by
    by_contra unlisted
    rw [(Value.find?_eq_none_iff reflects.keys s).mpr unlisted] at found
    cases found
  obtain ⟨fields, found', holds⟩ := reflects.sections s listed
  exact ⟨listed, fields, Option.some.inj (found.symm.trans found'), holds⟩

theorem exists_merged (there : ∀ x ∈ xs, x.IsIn files) (once : ((givenBy xs).map Prod.fst).Nodup) :
    ∃ m, merged files (xs.map path) = .ok m ∧ Merges xs m := by
  have both : ((givenBy (jsonOf xs) ++ givenBy (yamlOf xs)).map Prod.fst).Nodup :=
    ((perm_given there).map _).nodup_iff.mpr once
  rw [map_append] at both
  obtain ⟨json, jnames, jmade, jsame, jlisted⟩ := exists_mergeFiles (jsonOf xs) (json_there there) both.of_append_left
  obtain ⟨yaml, ynames, ymade, ysame, ylisted⟩ := exists_mergeFiles (yamlOf xs) (yaml_there there) both.of_append_right
  refine ⟨_, bind_eq_ok.mpr ⟨json, by rw [paths_filter]; exact jmade, bind_eq_ok.mpr
    ⟨yaml, by rw [paths_filter]; exact ymade, rfl⟩⟩, ⟨fun s => ?_, fun s v found => ?_⟩⟩
  · have keys : (fieldNames.map fun n => (Key.text n, Value.object [])).map Prod.fst = fieldNames.map Key.text := by
      simp
    rw [Value.find?_setFields ysame.keys ysame.distinct, Value.find?_setFields jsame.keys jsame.distinct,
      Option.or_eq_none_iff, Option.or_eq_none_iff, Value.find?_eq_none_iff ysame.keys,
      Value.find?_eq_none_iff jsame.keys, Value.find?_eq_none_iff keys, ylisted, jlisted, mem_sectionsOf_iff there]
    tauto
  · rw [Value.find?_setFields ysame.keys ysame.distinct, Value.find?_setFields jsame.keys jsame.distinct,
      Option.or_eq_some_iff, Option.or_eq_some_iff] at found
    -- the section of the YAML files, or of the JSON files, or an empty one
    rcases found with first | ⟨hidden, second | ⟨missing, third⟩⟩
    · obtain ⟨listed, fields, rfl, holds⟩ := ysame.section_eq first
      refine ⟨fields, rfl, fun k w => (holds k w).trans ⟨.inl, fun shown => shown.elim id fun below => ?_⟩⟩
      exact absurd ((ylisted s).mp listed) below.2
    · obtain ⟨-, fields, rfl, holds⟩ := jsame.section_eq second
      have free : s ∉ sectionsOf (yamlOf xs) := by
        rw [← ylisted]
        exact (Value.find?_eq_none_iff ysame.keys s).mp hidden
      refine ⟨fields, rfl, fun k w => (holds k w).trans ⟨fun given => .inr ⟨given, free⟩, fun shown => ?_⟩⟩
      exact shown.elim (fun above => absurd above (ysame.unlisted hidden k w)) And.left
    · obtain ⟨-, rfl⟩ := find?_start.mp third
      refine ⟨[], rfl, fun k w => ⟨fun found => (by cases found), fun shown => ?_⟩⟩
      rcases shown with above | ⟨below, -⟩
      · exact absurd above (ysame.unlisted hidden k w)
      · exact absurd below (jsame.unlisted missing k w)

/-! ## Sections alike -/

def SameSections (a b : Fields) : Prop :=
  ∀ s, Value.find? a s = none ∧ Value.find? b s = none ∨
    ∃ fields fields', Value.find? a s = some (.object fields) ∧ Value.find? b s = some (.object fields') ∧
      ∀ k, Value.find? fields k = Value.find? fields' k

/-- No section that a JSON file gives a field of is in a YAML file. -/
def Undivided (xs : List Source) : Prop := ∀ e ∈ givenBy (jsonOf xs), e.1.1 ∉ sectionsOf (yamlOf xs)

theorem mem_sectionsOf_of_given (given : e ∈ givenBy xs) : e.1.1 ∈ sectionsOf xs := by
  obtain ⟨x, listed, mem⟩ := mem_flatMap.mp given
  obtain ⟨⟨s, fields⟩, section_, entry⟩ := mem_flatMap.mp mem
  refine mem_flatMap.mpr ⟨x, listed, mem_map.mpr ⟨_, section_, ?_⟩⟩
  exact ((mem_entries (t := e.1.1) (k := e.1.2)).mp entry).1.symm

theorem Shown.given (shown : Shown xs e) : e ∈ givenBy xs := by
  have sub {format : Source → Bool} (mem : e ∈ givenBy (xs.filter format)) : e ∈ givenBy xs := by
    obtain ⟨x, listed, given⟩ := mem_flatMap.mp mem
    exact mem_flatMap.mpr ⟨x, (mem_filter.mp listed).1, given⟩
  exact shown.elim sub fun below => sub below.1

theorem Merges.shown_iff (merges : Merges xs m) {s k : String} :
    Shown xs ((s, k), v) ↔ ∃ fields, Value.find? m s = some (.object fields) ∧ Value.find? fields k = some v := by
  constructor
  · intro shown
    have present : Value.find? m s ≠ none := fun none =>
      ((merges.absent s).mp none).2 (mem_sectionsOf_of_given shown.given)
    obtain ⟨w, found⟩ := Option.ne_none_iff_exists'.mp present
    obtain ⟨fields, rfl, holds⟩ := merges.sections s w found
    exact ⟨fields, found, (holds k v).mpr shown⟩
  · rintro ⟨fields, found, field⟩
    obtain ⟨fields', same, holds⟩ := merges.sections s _ found
    cases same
    exact (holds k v).mp field

theorem sameSections_iff {ys : List Source} {a b : Fields} (left : Merges xs a) (right : Merges ys b)
    (sections : ∀ s, s ∈ sectionsOf xs ↔ s ∈ sectionsOf ys) : SameSections a b ↔ ∀ e, Shown xs e ↔ Shown ys e := by
  constructor
  · rintro same ⟨⟨s, k⟩, v⟩
    rw [left.shown_iff, right.shown_iff]
    rcases same s with ⟨none, none'⟩ | ⟨fields, fields', found, found', alike⟩
    · simp [none, none']
    · simp [found, found', alike]
  · intro same s
    by_cases none : Value.find? a s = none
    · refine .inl ⟨none, ?_⟩
      rw [left.absent, sections, ← right.absent] at none
      exact none
    · have none' : Value.find? b s ≠ .none := by rwa [ne_eq, right.absent, ← sections, ← left.absent]
      obtain ⟨v, found⟩ := Option.ne_none_iff_exists'.mp none
      obtain ⟨v', found'⟩ := Option.ne_none_iff_exists'.mp none'
      obtain ⟨fields, rfl, holds⟩ := left.sections s v found
      obtain ⟨fields', rfl, holds'⟩ := right.sections s v' found'
      refine .inr ⟨fields, fields', found, found', fun k => Option.ext fun w => ?_⟩
      rw [holds, holds', same]

theorem shown_iff_given (there : ∀ x ∈ xs, x.IsIn files) (once : ((givenBy xs).map Prod.fst).Nodup) :
    (∀ e, Shown xs e ↔ e ∈ givenBy xs) ↔ Undivided xs := by
  have either (e : Entry) : e ∈ givenBy xs ↔ e ∈ givenBy (jsonOf xs) ∨ e ∈ givenBy (yamlOf xs) := by
    rw [← mem_append]
    exact (perm_given there).mem_iff.symm
  constructor
  · intro all e json yaml
    rcases (all e).mpr ((either e).mpr (.inl json)) with above | ⟨-, free⟩
    · -- the field would be given by files of both formats
      have both := ((perm_given there).map Prod.fst).nodup_iff.mpr once
      rw [map_append] at both
      exact disjoint_of_nodup_append both (mem_map_of_mem json) (mem_map_of_mem above)
    · exact free yaml
  · intro undivided e
    rw [either]
    exact ⟨fun shown => shown.elim .inr fun below => .inl below.1,
      fun given => given.elim (fun json => .inr ⟨json, undivided e json⟩) .inl⟩

theorem undivided_singleton {x : Source} (there : x.IsIn files) : Undivided [x] := by
  intro e json yaml
  have other := there.isYaml_eq
  cases format : isJson x.path with
  | false => simp [jsonOf, format, givenBy] at json
  | true => simp [yamlOf, other, format, sectionsOf] at yaml

end

/-! ## Inputs from merged fields -/

def pathFields : List (String × String) := [("synthesis_config", "owl_path"), ("specification", "hoa_path")]

def HasAbsolutePaths (m : Fields) : Prop :=
  ∀ place ∈ pathFields, ∀ fields p, Value.find? m place.1 = some (.object fields) →
    Value.find? fields place.2 = some (.text p) → Path.isAbsolute p

theorem resolve_eq (absolute : ∀ p, v = .text p → Path.isAbsolute p) (here base base' : String) :
    resolve here base v = resolve here base' v := by
  cases v with
  | text p => simp [resolve, Value.isNull, Value.toTextOnly, absolute p rfl, bind, Except.bind]
  | _ => simp [resolve, Value.isNull, Value.toTextOnly, bind, Except.bind]

theorem ok_bind {α β : Type} (a : α) (f : α → Except Error β) : (Except.ok a >>= f) = f a := rfl

/-- The value of a field, or nothing. -/
def got (fields : Fields) (s k : String) : Value :=
  match Value.find? fields s with
  | some (.object inner) => (Value.find? inner k).getD .null
  | _ => .null

/-- All sections are there, and they agree but for some fields. -/
def SameBut (changed : List (String × String)) (a b : Fields) : Prop :=
  ∀ s ∈ fieldNames, ∃ inner inner', Value.find? a s = some (.object inner) ∧ Value.find? b s = some (.object inner') ∧
    ∀ k, (s, k) ∉ changed → Value.find? inner k = Value.find? inner' k

section

variable {changed more : List (String × String)} {here base base' : String} {a b : Fields} {i : Input} {inner : Value}

theorem SameBut.mono (same : SameBut changed a b) (subset : changed ⊆ more) : SameBut more a b := by
  intro s listed
  obtain ⟨inner, inner', found, found', alike⟩ := same s listed
  exact ⟨inner, inner', found, found', fun k unchanged => alike k fun mem => unchanged (subset mem)⟩

theorem SameBut.got_eq (same : SameBut changed a b) (listed : s ∈ fieldNames) (unchanged : (s, k) ∉ changed) :
    got b s k = got a s k := by
  obtain ⟨inner, inner', found, found', alike⟩ := same s listed
  simp only [got, found, found', alike k unchanged]

theorem ofFields_sameBut (same : SameBut [("actions", "control_policy"), ("specification", "ltl_formula")] a b)
    (paths : ∀ place ∈ pathFields,
      resolve here base' (got a place.1 place.2) = resolve here base (got a place.1 place.2)) :
    ofFields here base' b = (fun i => { i with
      actions.policies := got b "actions" "control_policy"
      specification.formula := got b "specification" "ltl_formula" }) <$> ofFields here base a := by
  obtain ⟨_, _, actions, actions', alike₁⟩ := same "actions" (by decide)
  obtain ⟨_, _, noise, noise', alike₂⟩ := same "disturbance" (by decide)
  obtain ⟨_, _, system, system', alike₃⟩ := same "stochastic_dynamical_system" (by decide)
  obtain ⟨_, _, synthesis, synthesis', alike₄⟩ := same "synthesis_config" (by decide)
  obtain ⟨_, _, specified, specified', alike₅⟩ := same "specification" (by decide)
  have other₁ {k : String} (unchanged : k ≠ "control_policy") := alike₁ k (by simp [unchanged])
  have other₅ {k : String} (unchanged : k ≠ "ltl_formula") := alike₅ k (by simp [unchanged])
  have translator := paths ("synthesis_config", "owl_path") (by decide)
  have automaton := paths ("specification", "hoa_path") (by decide)
  simp only [got, synthesis, specified] at translator automaton
  simp (disch := decide) only [ofFields, Value.item, Value.get, got, actions, actions', noise, noise', system, system',
    synthesis, synthesis', specified, specified', Option.elim_some, ok_bind, map_bind, map_pure, ← alike₂, ← alike₃,
    ← alike₄, ← other₁, ← other₅, translator, automaton]

theorem ofFields_congr (same : SameSections a b) (present : ∀ n ∈ fieldNames, Value.find? a n ≠ none)
    (absolute : HasAbsolutePaths a) (here base base' : String) : ofFields here base a = ofFields here base' b := by
  have both : SameBut [] a b := by
    intro n listed
    rcases same n with ⟨none, -⟩ | ⟨inner, inner', found, found', alike⟩
    · exact absurd none (present n listed)
    · exact ⟨inner, inner', found, found', fun k _ => alike k⟩
  have alone : SameBut [] a a := by
    intro n listed
    obtain ⟨inner, -, found, -⟩ := both n listed
    exact ⟨inner, inner, found, found, fun _ _ => rfl⟩
  have paths : ∀ place ∈ pathFields,
      resolve here base' (got a place.1 place.2) = resolve here base (got a place.1 place.2) := by
    refine fun place listed => resolve_eq (fun p path => ?_) ..
    unfold got at path
    split at path
    · rename_i inner found
      cases field : Value.find? inner place.2 with
      | none => simp [field] at path
      | some v => exact absolute place listed inner p found (by simpa [field] using path)
    · cases path
  rw [ofFields_sameBut (both.mono (nil_subset _)) paths, both.got_eq (by decide) not_mem_nil,
    both.got_eq (by decide) not_mem_nil, ← ofFields_sameBut (alone.mono (nil_subset _)) fun _ _ => rfl]

theorem got_of_item (item : (Value.object a).item s = .ok inner) (found : inner.get k = .ok v) : got a s k = v := by
  rw [Value.item] at item
  cases known : Value.find? a s with
  | none =>
    rw [known] at item
    cases item
  | some w =>
    rw [known] at item
    cases item
    cases inner with
    | object inner =>
      cases found
      rw [got, known]
    | _ => cases found

/-- What an input says of the fields that may be left out. -/
structure Holds (here base : String) (a : Fields) (i : Input) : Prop where
  policies : got a "actions" "control_policy" = i.actions.policies
  translator : resolve here base (got a "synthesis_config" "owl_path") = .ok i.specification.translator
  automaton : resolve here base (got a "specification" "hoa_path") = .ok i.specification.automaton

theorem holds_of_ofFields (made : ofFields here base a = .ok i) : Holds here base a i := by
  unfold ofFields at made
  obtain ⟨synthesis, item₁, made⟩ := bind_eq_ok.mp made
  obtain ⟨actions, item₂, made⟩ := bind_eq_ok.mp made
  iterate 5 obtain ⟨_, -, made⟩ := bind_eq_ok.mp made
  obtain ⟨_, got₂, made⟩ := bind_eq_ok.mp made
  iterate 9 obtain ⟨_, -, made⟩ := bind_eq_ok.mp made
  obtain ⟨owl, got₁, made⟩ := bind_eq_ok.mp made
  obtain ⟨translator, resolved₁, made⟩ := bind_eq_ok.mp made
  iterate 3 obtain ⟨_, -, made⟩ := bind_eq_ok.mp made
  obtain ⟨specified, item₃, made⟩ := bind_eq_ok.mp made
  obtain ⟨hoa, got₃, made⟩ := bind_eq_ok.mp made
  obtain ⟨automaton, resolved₃, made⟩ := bind_eq_ok.mp made
  iterate 8 obtain ⟨_, -, made⟩ := bind_eq_ok.mp made
  cases made
  exact ⟨got_of_item item₂ got₂, by rwa [got_of_item item₁ got₁], by rwa [got_of_item item₃ got₃]⟩

end

/-! ## Cuts of a configuration -/

/-- Files that give each field of another file once. -/
structure Cuts (parts : List Source) (whole : Source) : Prop where
  once : ((givenBy parts).map Prod.fst).Nodup
  given : (givenBy parts).Perm whole.given
  sections : ∀ s, s ∈ sectionsOf parts ↔ s ∈ whole.names

section

variable {files : Files} {parts : List Source} {whole : Source}

theorem Cuts.exists_merged (cuts : Cuts parts whole) (there : ∀ x ∈ whole :: parts, x.IsIn files) :
    ∃ m w, merged files (parts.map path) = .ok m ∧ merged files [whole.path] = .ok w ∧ Merges parts m ∧
      (SameSections m w ↔ Undivided parts) := by
  obtain ⟨here, theres⟩ := forall_mem_cons.mp there
  have alone : ∀ x ∈ [whole], x.IsIn files := by simpa using here
  have all : givenBy [whole] = whole.given := by simp [givenBy]
  have once : ((givenBy [whole]).map Prod.fst).Nodup := by
    rw [all]
    exact (cuts.given.map _).nodup_iff.mp cuts.once
  obtain ⟨m, made, merges⟩ := Input.exists_merged theres cuts.once
  obtain ⟨w, made', merges'⟩ := Input.exists_merged alone once
  refine ⟨m, w, made, made', merges, ?_⟩
  rw [sameSections_iff merges merges' (by simpa [sectionsOf] using cuts.sections), ← shown_iff_given theres cuts.once]
  refine forall_congr' fun e => ?_
  rw [(shown_iff_given alone once).mpr (undivided_singleton here), all, cuts.given.mem_iff]

/-- The merged fields of a cut are those of one file with everything exactly if no section is divided between
the formats. Then the input is the same, too. -/
theorem cut_read_eq_whole (present : parts ≠ []) (there : ∀ x ∈ whole :: parts, x.IsIn files) (cuts : Cuts parts whole)
    (absolute : ∀ place ∈ pathFields, ∀ p, (place, .text p) ∈ whole.given → Path.isAbsolute p) :
    ∃ m w, merged files (parts.map path) = .ok m ∧ merged files [whole.path] = .ok w ∧
      (SameSections m w ↔ Undivided parts) ∧
      (Undivided parts → read files (parts.map path) = read files [whole.path]) := by
  obtain ⟨m, w, made, made', merges, same⟩ := cuts.exists_merged there
  refine ⟨m, w, made, made', same, fun undivided => ?_⟩
  have sections : ∀ n ∈ fieldNames, Value.find? m n ≠ none := fun n listed none => ((merges.absent n).mp none).1 listed
  have paths : HasAbsolutePaths m := by
    intro place listed fields p found field
    refine absolute place listed p (cuts.given.mem_iff.mp ?_)
    exact (merges.shown_iff.mpr ⟨fields, found, field⟩).given
  cases parts with
  | nil => exact absurd rfl present
  | cons x xs =>
    calc read files ((x :: xs).map path)
        = ofFields files.here (Path.folder x.path) m := by
          show merged files ((x :: xs).map path) >>= _ = _
          rw [made]
          rfl
      _ = ofFields files.here (Path.folder whole.path) w := ofFields_congr (same.mpr undivided) sections paths _ _ _
      _ = read files [whole.path] := by
          show _ = merged files [whole.path] >>= _
          rw [made']
          rfl

end

/-! Values cannot be compared by evaluation, but sections whose fields are texts can. -/

def ofTexts (path : String) (sections : List (String × List (String × String))) : Source :=
  ⟨path, sections.map fun (s, fields) => (s, fields.map fun (k, v) => (k, .text v))⟩

def agree {α : Type} (check : α → Value → Bool) : List (String × α) → Fields → Bool
  | [], [] => true
  | (k, x) :: xs, (.text k', v) :: fields => k' == k && check x v && agree check xs fields
  | _, _ => false

theorem eq_of_agree {α : Type} {check : α → Value → Bool} {f : α → Value}
    (sound : ∀ x v, check x v → v = f x) {xs : List (String × α)} {fields : Fields} (checked : agree check xs fields) :
    fields = Value.named (xs.map fun (k, x) => (k, f x)) := by
  fun_induction agree check xs fields with
  | case1 => rfl
  | case2 k x xs k' v fields ih =>
    simp only [Bool.and_eq_true, beq_iff_eq] at checked
    obtain ⟨⟨rfl, first⟩, rest⟩ := checked
    simp [ih rest, sound x v first, Value.named]
  | case3 => cases checked

def isTexts (sections : List (String × List (String × String))) : Except Error Value → Bool
  | .ok (.object fields) => agree (fun texts v => match v with
    | .object inner => agree (fun text v => v.isText text) texts inner
    | _ => false) sections fields
  | _ => false

theorem eq_of_isTexts {sections : List (String × List (String × String))} {result : Except Error Value}
    (checked : isTexts sections result) (path : String) : result = .ok (ofTexts path sections).value := by
  unfold isTexts at checked
  split at checked
  · rename_i fields
    rw [eq_of_agree (f := fun texts => .record (texts.map fun (k, t) => (k, .text t))) ?_ checked]
    · simp [ofTexts, value, Value.record, Value.named]
    · intro texts v same
      split at same
      · rw [eq_of_agree Value.eq_of_isText same]
        rfl
      · cases same
  · cases checked

def solver : Source := ofTexts "/solver.json" [("synthesis_config", [("solver_name", "z3")])]

def formula : Source := ofTexts "/formula.yaml" [("specification", [("ltl_formula", "F a")])]

def rule (path : String) : Source := ofTexts path [("synthesis_config", [("theorem_name", "farkas")])]

def everything : Source :=
  ofTexts "/all.json" [("specification", [("ltl_formula", "F a")]),
    ("synthesis_config", [("theorem_name", "farkas"), ("solver_name", "z3")])]

def desk : Files := ⟨"/", [
  ("/solver.json", .file (Json.writeLine solver.value) false),
  ("/formula.yaml", .file "specification:\n  ltl_formula: F a\n" false),
  ("/rule.json", .file (Json.writeLine (rule "/rule.json").value) false),
  ("/rule.yml", .file "synthesis_config:\n  theorem_name: farkas\n" false),
  ("/all.json", .file (Json.writeLine everything.value) false)], []⟩

theorem all_isIn_desk : ∀ x ∈ [everything, solver, formula, rule "/rule.json", rule "/rule.yml"], x.IsIn desk := by
  simp only [forall_mem_cons]
  refine ⟨⟨_, rfl, .inl ⟨by decide, eq_of_isTexts (by decide +kernel) _⟩⟩,
    ⟨_, rfl, .inl ⟨by decide, eq_of_isTexts (by decide +kernel) _⟩⟩,
    ⟨_, rfl, .inr ⟨by decide, eq_of_isTexts (by decide +kernel) _⟩⟩,
    ⟨_, rfl, .inl ⟨by decide, eq_of_isTexts (by decide +kernel) _⟩⟩,
    ⟨_, rfl, .inr ⟨by decide, eq_of_isTexts (by decide +kernel) _⟩⟩, by simp⟩

theorem cuts_everything (path : String) : Cuts [solver, formula, rule path] everything := by
  refine ⟨by simp [givenBy, given, entries, solver, formula, rule, ofTexts], ?_, fun s => ?_⟩
  · exact (perm_append_singleton _ [_, _]).symm
  · simp [sectionsOf, Source.names, solver, formula, rule, everything, ofTexts]
    tauto

theorem formats_of_desk : jsonOf [solver, formula, rule "/rule.json"] = [solver, rule "/rule.json"] ∧
    yamlOf [solver, formula, rule "/rule.json"] = [formula] ∧
    jsonOf [solver, formula, rule "/rule.yml"] = [solver] ∧
    yamlOf [solver, formula, rule "/rule.yml"] = [formula, rule "/rule.yml"] := by
  have json : isJson "/solver.json" ∧ isJson "/formula.yaml" = false ∧ isJson "/rule.json" ∧
      isJson "/rule.yml" = false := by decide
  have yaml : isYaml "/solver.json" = false ∧ isYaml "/formula.yaml" ∧ isYaml "/rule.json" = false ∧
      isYaml "/rule.yml" := by decide
  simp [jsonOf, yamlOf, solver, formula, rule, ofTexts, json, yaml]

/-- Two JSON files share a section and a YAML file gives another one. -/
theorem desk_read_eq_whole : Cuts [solver, formula, rule "/rule.json"] everything ∧
    Undivided [solver, formula, rule "/rule.json"] ∧
    read desk ["/solver.json", "/formula.yaml", "/rule.json"] = read desk ["/all.json"] := by
  have there : ∀ x ∈ [everything, solver, formula, rule "/rule.json"], x.IsIn desk := fun x member =>
    all_isIn_desk x (by simp only [mem_cons, not_mem_nil, or_false] at member ⊢; tauto)
  have undivided : Undivided [solver, formula, rule "/rule.json"] := by
    rw [Undivided, formats_of_desk.1, formats_of_desk.2.1]
    simp [givenBy, given, entries, sectionsOf, Source.names, solver, formula, rule, ofTexts]
  obtain ⟨m, w, -, -, -, same⟩ := cut_read_eq_whole (by simp) there (cuts_everything _)
    (by simp [pathFields, given, entries, everything, ofTexts])
  exact ⟨cuts_everything _, undivided, same undivided⟩

/-- A JSON and a YAML file share a section, and a field of it is lost. -/
theorem divided_section_loses_field : Cuts [solver, formula, rule "/rule.yml"] everything ∧
    ∃ m w, merged desk ["/solver.json", "/formula.yaml", "/rule.yml"] = .ok m ∧ merged desk ["/all.json"] = .ok w ∧
      ¬ SameSections m w := by
  have there : ∀ x ∈ [everything, solver, formula, rule "/rule.yml"], x.IsIn desk := fun x member =>
    all_isIn_desk x (by simp only [mem_cons, not_mem_nil, or_false] at member ⊢; tauto)
  obtain ⟨m, w, made, made', -, same⟩ := (cuts_everything "/rule.yml").exists_merged there
  refine ⟨cuts_everything _, m, w, made, made', fun alike => ?_⟩
  have undivided := same.mp alike
  rw [Undivided, formats_of_desk.2.2.1, formats_of_desk.2.2.2] at undivided
  refine undivided (("synthesis_config", "solver_name"), .text "z3") ?_ ?_
  · simp [givenBy, given, entries, solver, ofTexts]
  · simp [sectionsOf, Source.names, rule, ofTexts]

end Input

end Supermartingale
