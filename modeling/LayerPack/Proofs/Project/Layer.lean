import LayerPack.Proofs.Project.Pyproject
import LayerPack.Proofs.Toml.Order

/-! The table `[tool.kodegen-layer]`. Each key takes values of its own type. A table with an unknown
key, or with a value of another type, is refused as a whole; otherwise each value is in the field of
its key, and a field without a key has its default. The order of the lines plays no part in this. -/
namespace LayerPack.LayerConfig

open Toml (Value)

/-- A value is a text. A date or a time counts as its own. -/
inductive IsText : Value → String → Prop
  | string (text : String) : IsText (.string text) text
  | moment (text : String) : IsText (.moment text) text

/-- A value is a list of texts. -/
inductive Lists : Value → List String → Prop
  | array {items : List Value} {texts : List String} (each : List.Forall₂ IsText items texts) :
    Lists (.array items) texts

/-- A value chooses a frontend: by its name, or by a table that has the name as the only key, with
nothing below it. -/
inductive Chooses : Value → Frontend → Prop
  | name (frontend : Frontend) : Chooses (.string frontend.name) frontend
  | table (frontend : Frontend) : Chooses (.table [(frontend.name, .table [])]) frontend
  | array (frontend : Frontend) : Chooses (.table [(frontend.name, .array [])]) frontend

/-- The keys that take a text. -/
def textKeys : List String :=
  ["output", "workspace", "layer-prefix", "python", "python-version", "implementation"]

/-- The keys that take a list of texts. -/
def listKeys : List String := ["platforms", "pip-args"]

/-- A known key with a value of its type. -/
inductive Fits : String → Value → Prop
  | text {key : String} {value : Value} {text : String} (known : key ∈ textKeys)
    (h : IsText value text) : Fits key value
  | texts {key : String} {value : Value} {texts : List String} (known : key ∈ listKeys)
    (h : Lists value texts) : Fits key value
  | frontend {value : Value} {frontend : Frontend} (h : Chooses value frontend) :
    Fits "frontend" value
  | flag (value : Bool) : Fits "skip-reconcile" (.boolean value)

/-- A field is what the value of its key makes it, and the default without the key. -/
structure Field {α : Type} (entries : List (String × Value)) (key : String) (reads : Value → α → Prop)
    (default field : α) : Prop where
  present : ∀ value, (key, value) ∈ entries → reads value field
  absent : (∀ value, (key, value) ∉ entries) → field = default

/-- What a field that may be unset is, if its value is read like this. -/
def Given {α : Type} (reads : Value → α → Prop) (value : Value) (field : Option α) : Prop :=
  ∃ a, reads value a ∧ field = some a

/-- Every field of a configuration is what the entries of the table say. -/
structure Decodes (entries : List (String × Value)) (config : LayerConfig) : Prop where
  output : Field entries "output" (Given IsText) none config.output
  workspace : Field entries "workspace" (Given IsText) none config.workspace
  layerPrefix : Field entries "layer-prefix" (Given IsText) none config.layerPrefix
  python : Field entries "python" (Given IsText) none config.python
  frontend : Field entries "frontend" (Given Chooses) none config.frontend
  platforms : Field entries "platforms" Lists [] config.platforms
  pythonVersion : Field entries "python-version" (Given IsText) none config.pythonVersion
  implementation : Field entries "implementation" (Given IsText) none config.implementation
  pipArgs : Field entries "pip-args" Lists [] config.pipArgs
  skipReconcile : Field entries "skip-reconcile" (Given fun value b => value = .boolean b) none
    config.skipReconcile

variable {value : Value} {key wanted : String} {config config' : LayerConfig}
  {entries : List (String × Value)}

/-! ### Values of a type -/

theorem readText_eq_ok {text : String} : readText wanted value = .ok text ↔ IsText value text := by
  constructor
  · intro h
    cases value with
    | string text =>
      cases h
      exact .string _
    | moment text =>
      cases h
      exact .moment _
    | integer | float | boolean | array | table => cases h
  · rintro (_ | _) <;> rfl

theorem mapM_readText_eq_ok {items : List Value} {texts : List String} :
    items.mapM (readText wanted) = .ok texts ↔ List.Forall₂ IsText items texts := by
  induction items generalizing texts with
  | nil =>
    rw [List.mapM_nil, List.forall₂_nil_left_iff]
    exact ⟨fun h => by cases h; rfl, fun h => h ▸ rfl⟩
  | cons item items ih =>
    rw [List.mapM_cons, List.forall₂_cons_left_iff]
    have first (text : String) : IsText item text ↔ readText wanted item = .ok text := readText_eq_ok.symm
    simp only [first, ← ih]
    cases readText wanted item with
    | error why => simp [bind, Except.bind]
    | ok text =>
      cases items.mapM (readText wanted) with
      | error why => simp [bind, Except.bind]
      | ok rest => simp [bind, Except.bind, pure, Except.pure, eq_comm]

theorem readTexts_eq_ok {texts : List String} : readTexts value = .ok texts ↔ Lists value texts := by
  constructor
  · intro h
    cases value with
    | array items => exact .array (mapM_readText_eq_ok.mp h)
    | string | integer | float | boolean | moment | table => cases h
  · rintro ⟨each⟩
    exact mapM_readText_eq_ok.mpr each

theorem readFlag_eq_ok {b : Bool} : readFlag value = .ok b ↔ value = .boolean b := by
  cases value <;> simp [readFlag]

theorem readVariant_eq_ok {name : String} {frontend : Frontend} :
    readVariant name = .ok frontend ↔ name = frontend.name := by
  unfold readVariant
  split
  next h => cases frontend <;> simp [h, Frontend.name]
  next h =>
    split
    next h' => cases frontend <;> simp [h', Frontend.name]
    next h' => cases frontend <;> simp [h, h', Frontend.name]

theorem readFrontend_eq_ok {frontend : Frontend} :
    readFrontend value = .ok frontend ↔ Chooses value frontend := by
  constructor
  · intro h
    unfold readFrontend at h
    split at h
    · rw [readVariant_eq_ok.mp h]
      exact .name frontend
    · cases h
    next name inner =>
      cases hv : readVariant name with
      | error why =>
        rw [hv] at h
        cases h
      | ok chosen =>
        rw [readVariant_eq_ok.mp hv]
        rw [hv] at h
        dsimp only [bind, Except.bind] at h
        split at h <;> cases h
        · exact .table frontend
        · exact .array frontend
    · cases h
    · cases h
  · rintro (_ | _ | _) <;> cases frontend <;> rfl

/-! ### Entries -/

/-- What an entry changes: the field of its key. -/
inductive Sets (config : LayerConfig) : String → Value → LayerConfig → Prop
  | output {value : Value} {text : String} (h : IsText value text) :
    Sets config "output" value { config with output := some text }
  | workspace {value : Value} {text : String} (h : IsText value text) :
    Sets config "workspace" value { config with workspace := some text }
  | layerPrefix {value : Value} {text : String} (h : IsText value text) :
    Sets config "layer-prefix" value { config with layerPrefix := some text }
  | python {value : Value} {text : String} (h : IsText value text) :
    Sets config "python" value { config with python := some text }
  | frontend {value : Value} {frontend : Frontend} (h : Chooses value frontend) :
    Sets config "frontend" value { config with frontend := some frontend }
  | platforms {value : Value} {texts : List String} (h : Lists value texts) :
    Sets config "platforms" value { config with platforms := texts }
  | pythonVersion {value : Value} {text : String} (h : IsText value text) :
    Sets config "python-version" value { config with pythonVersion := some text }
  | implementation {value : Value} {text : String} (h : IsText value text) :
    Sets config "implementation" value { config with implementation := some text }
  | pipArgs {value : Value} {texts : List String} (h : Lists value texts) :
    Sets config "pip-args" value { config with pipArgs := texts }
  | skipReconcile (flag : Bool) :
    Sets config "skip-reconcile" (.boolean flag) { config with skipReconcile := some flag }

/-- A value is read, and then a field is set to it. -/
theorem read_bind_eq_ok {α : Type} {read : Except String α} {f : α → LayerConfig} :
    (do return f (← read)) = Except.ok config' ↔ ∃ a, read = .ok a ∧ f a = config' := by
  cases read with
  | error why => simp [bind, Except.bind]
  | ok a => simp [bind, Except.bind, pure, Except.pure]

theorem set_eq_ok : config.set key value = .ok config' ↔ Sets config key value config' := by
  constructor
  · intro h
    unfold set at h
    split at h <;> first | cases h | obtain ⟨a, ha, rfl⟩ := read_bind_eq_ok.mp h
    · exact .output (readText_eq_ok.mp ha)
    · exact .workspace (readText_eq_ok.mp ha)
    · exact .layerPrefix (readText_eq_ok.mp ha)
    · exact .python (readText_eq_ok.mp ha)
    · exact .frontend (readFrontend_eq_ok.mp ha)
    · exact .platforms (readTexts_eq_ok.mp ha)
    · exact .pythonVersion (readText_eq_ok.mp ha)
    · exact .implementation (readText_eq_ok.mp ha)
    · exact .pipArgs (readTexts_eq_ok.mp ha)
    · rw [readFlag_eq_ok.mp ha]
      exact .skipReconcile a
  · intro h
    cases h with
    | output h | workspace h | layerPrefix h | python h | pythonVersion h | implementation h =>
      exact read_bind_eq_ok.mpr ⟨_, readText_eq_ok.mpr h, rfl⟩
    | frontend h => exact read_bind_eq_ok.mpr ⟨_, readFrontend_eq_ok.mpr h, rfl⟩
    | platforms h | pipArgs h => exact read_bind_eq_ok.mpr ⟨_, readTexts_eq_ok.mpr h, rfl⟩
    | skipReconcile flag => rfl

theorem Sets.fits (h : Sets config key value config') : Fits key value := by
  cases h with
  | output h | workspace h | layerPrefix h | python h | pythonVersion h | implementation h =>
    exact .text (by decide) h
  | frontend h => exact .frontend h
  | platforms h | pipArgs h => exact .texts (by decide) h
  | skipReconcile flag => exact .flag flag

theorem Fits.sets (h : Fits key value) (config : LayerConfig) : ∃ config', Sets config key value config' := by
  cases h with
  | text known h =>
    simp only [textKeys, List.mem_cons, List.not_mem_nil, or_false] at known
    rcases known with rfl | rfl | rfl | rfl | rfl | rfl
    exacts [⟨_, .output h⟩, ⟨_, .workspace h⟩, ⟨_, .layerPrefix h⟩, ⟨_, .python h⟩,
      ⟨_, .pythonVersion h⟩, ⟨_, .implementation h⟩]
  | texts known h =>
    simp only [listKeys, List.mem_cons, List.not_mem_nil, or_false] at known
    rcases known with rfl | rfl
    exacts [⟨_, .platforms h⟩, ⟨_, .pipArgs h⟩]
  | frontend h => exact ⟨_, .frontend h⟩
  | flag value => exact ⟨_, .skipReconcile value⟩

/-- Only what fits is accepted, whatever was read before. -/
theorem fits_iff : Fits key value ↔ ∃ config', config.set key value = .ok config' :=
  ⟨fun h => (h.sets config).imp fun _ => set_eq_ok.mpr, fun ⟨_, h⟩ => (set_eq_ok.mp h).fits⟩

theorem Fits.known (h : Fits key value) : key ∈ keys := by
  cases h with
  | text known => exact (show textKeys ⊆ keys by decide) known
  | texts known => exact (show listKeys ⊆ keys by decide) known
  | frontend | flag => decide

/-- Each of the keys takes some value, and no other key does. -/
theorem exists_fits_iff : (∃ value, Fits key value) ↔ key ∈ keys := by
  refine ⟨fun ⟨_, h⟩ => h.known, fun h => ?_⟩
  have kinds : key ∈ textKeys ∨ key ∈ listKeys ∨ key = "frontend" ∨ key = "skip-reconcile" := by
    simp only [keys, textKeys, listKeys, List.mem_cons, List.not_mem_nil, or_false] at h ⊢
    tauto
  rcases kinds with h | h | rfl | rfl
  · exact ⟨_, .text h (.string "")⟩
  · exact ⟨_, .texts h (.array .nil)⟩
  · exact ⟨_, .frontend (.name .pip)⟩
  · exact ⟨_, .flag true⟩

/-- What is wrong with an entry does not depend on what was read before. -/
theorem set_error {what : String} (h : config.set key value = .error what) (other : LayerConfig) :
    other.set key value = .error what := by
  have read {α : Type} {x : Except String α} {f g : α → LayerConfig}
      (h : (do return f (← x)) = Except.error what) : (do return g (← x)) = Except.error what := by
    cases x with
    | error why => exact h
    | ok a => cases h
  unfold set at h ⊢
  split at h
  iterate 10 exact read h
  exact h

/-! ### Tables -/

/-- The problem of a table: that of its first entry that does not fit. -/
def FirstMisfit (entries : List (String × Value)) (problem : Problem) : Prop :=
  ∃ before key value rest, entries = before ++ (key, value) :: rest ∧
    (∀ e ∈ before, Fits e.1 e.2) ∧ ¬ Fits key value ∧
    (∀ config : LayerConfig, config.set key value = .error problem.what) ∧
    problem.key = if key ∈ keys then some key else none

theorem ofEntries_error {problem : Problem} (h : ofEntries config entries = .error problem) :
    FirstMisfit entries problem := by
  induction entries generalizing config with
  | nil => cases h
  | cons e rest ih =>
    obtain ⟨key, value⟩ := e
    rw [ofEntries] at h
    split at h
    next config' hs =>
      obtain ⟨before, key', value', after, rfl, fits, misfit, what, hk⟩ := ih h
      refine ⟨(key, value) :: before, key', value', after, rfl, ?_, misfit, what, hk⟩
      exact List.forall_mem_cons.mpr ⟨fits_iff.mpr ⟨config', hs⟩, fits⟩
    next what hs =>
      cases h
      refine ⟨[], key, value, rest, rfl, nofun, fun fits => ?_, set_error hs, rfl⟩
      obtain ⟨config', hc⟩ := fits.sets config
      rw [set_eq_ok.mpr hc] at hs
      cases hs

/-- A table is accepted if each of its entries fits. -/
theorem ofEntries_ok_iff : (∃ config', ofEntries config entries = .ok config') ↔
    ∀ key value, (key, value) ∈ entries → Fits key value := by
  constructor
  · rintro ⟨config', h⟩
    induction entries generalizing config with
    | nil => exact fun _ _ => nofun
    | cons e rest ih =>
      obtain ⟨key, value⟩ := e
      rw [ofEntries] at h
      split at h
      next hs =>
        intro k v hm
        rcases List.mem_cons.mp hm with he | hm
        · cases he
          exact fits_iff.mpr ⟨_, hs⟩
        · exact ih h k v hm
      next => cases h
  · intro fits
    cases h : ofEntries config entries with
    | ok config' => exact ⟨config', rfl⟩
    | error problem =>
      obtain ⟨before, key, value, rest, rfl, -, misfit, -⟩ := ofEntries_error h
      exact absurd (fits key value (by simp)) misfit

/-- A field that its own key sets and no other key touches is, after a table, what its key makes it. -/
theorem field_ofEntries {α : Type} {own : String} {reads : Value → α → Prop} (project : LayerConfig → α)
    (step : ∀ {config key value config'}, Sets config key value config' →
      (key = own ∧ reads value (project config')) ∨ (key ≠ own ∧ project config' = project config))
    (nodup : (entries.map Prod.fst).Nodup) (h : ofEntries config entries = .ok config') :
    Field entries own reads (project config) (project config') := by
  induction entries generalizing config with
  | nil =>
    cases h
    exact ⟨fun _ => nofun, fun _ => rfl⟩
  | cons e rest ih =>
    obtain ⟨key, value⟩ := e
    rw [List.map_cons, List.nodup_cons] at nodup
    rw [ofEntries] at h
    split at h
    next next hs =>
      have later := ih nodup.2 h
      rcases step (set_eq_ok.mp hs) with ⟨rfl, reads⟩ | ⟨hk, kept⟩
      · have fresh (v : Value) : (key, v) ∉ rest := fun hm => nodup.1 (List.mem_map.mpr ⟨_, hm, rfl⟩)
        refine ⟨fun v hm => ?_, fun none => absurd List.mem_cons_self (none value)⟩
        rcases List.mem_cons.mp hm with he | hm
        · cases he
          rwa [later.absent fresh]
        · exact absurd hm (fresh v)
      · refine ⟨fun v hm => ?_, fun none => ?_⟩
        · rcases List.mem_cons.mp hm with he | hm
          · cases he
            exact absurd rfl hk
          · exact later.present v hm
        · rw [later.absent fun v hm => none v (List.mem_cons_of_mem _ hm), kept]
    next => cases h

/-- What is read of a table has in each field what the entries say. -/
theorem decodes_ofEntries (nodup : (entries.map Prod.fst).Nodup)
    (h : ofEntries {} entries = .ok config) : Decodes entries config where
  output := field_ofEntries output (fun h => by
    cases h with
    | output h => exact .inl ⟨rfl, _, h, rfl⟩
    | _ => exact .inr ⟨by decide, rfl⟩) nodup h
  workspace := field_ofEntries workspace (fun h => by
    cases h with
    | workspace h => exact .inl ⟨rfl, _, h, rfl⟩
    | _ => exact .inr ⟨by decide, rfl⟩) nodup h
  layerPrefix := field_ofEntries layerPrefix (fun h => by
    cases h with
    | layerPrefix h => exact .inl ⟨rfl, _, h, rfl⟩
    | _ => exact .inr ⟨by decide, rfl⟩) nodup h
  python := field_ofEntries python (fun h => by
    cases h with
    | python h => exact .inl ⟨rfl, _, h, rfl⟩
    | _ => exact .inr ⟨by decide, rfl⟩) nodup h
  frontend := field_ofEntries frontend (fun h => by
    cases h with
    | frontend h => exact .inl ⟨rfl, _, h, rfl⟩
    | _ => exact .inr ⟨by decide, rfl⟩) nodup h
  platforms := field_ofEntries platforms (fun h => by
    cases h with
    | platforms h => exact .inl ⟨rfl, h⟩
    | _ => exact .inr ⟨by decide, rfl⟩) nodup h
  pythonVersion := field_ofEntries pythonVersion (fun h => by
    cases h with
    | pythonVersion h => exact .inl ⟨rfl, _, h, rfl⟩
    | _ => exact .inr ⟨by decide, rfl⟩) nodup h
  implementation := field_ofEntries implementation (fun h => by
    cases h with
    | implementation h => exact .inl ⟨rfl, _, h, rfl⟩
    | _ => exact .inr ⟨by decide, rfl⟩) nodup h
  pipArgs := field_ofEntries pipArgs (fun h => by
    cases h with
    | pipArgs h => exact .inl ⟨rfl, h⟩
    | _ => exact .inr ⟨by decide, rfl⟩) nodup h
  skipReconcile := field_ofEntries skipReconcile (fun h => by
    cases h with
    | skipReconcile flag => exact .inl ⟨rfl, _, rfl, rfl⟩
    | _ => exact .inr ⟨by decide, rfl⟩) nodup h

end LayerPack.LayerConfig

namespace LayerPack.Metadata

open LayerConfig Toml.Value

variable {content : String} {document : Toml.Value} {entries : List (String × Toml.Value)}

theorem layerIs_table (table : At ["tool", "kodegen-layer"] document (.table entries)) :
    LayerIs document (ofEntries {} entries) := .inl ⟨_, table, rfl⟩

theorem LayerIs.unique {read read' : Except Problem LayerConfig} (h : LayerIs document read)
    (h' : LayerIs document read') : read = read' := (layerIs_iff.mp h).symm.trans (layerIs_iff.mp h')

/-- The keys of the table of defaults are distinct. -/
theorem nodup_layerTable (parsed : Toml.parse? content = some document)
    (table : At ["tool", "kodegen-layer"] document (.table entries)) : (entries.map Prod.fst).Nodup := by
  cases (Toml.keyed_of_parse parsed).at table with
  | table sorted => exact List.pairwise_map.mpr (sorted.imp And.left)

/-- What is made of the table, apart from the rest of the document. -/
theorem parsePyproject_layer (parsed : Toml.parse? content = some document)
    (table : At ["tool", "kodegen-layer"] document (.table entries)) :
    (parsePyproject content).map layer = (ofEntries {} entries).mapError .layer := by
  cases h : parsePyproject content with
  | ok found =>
    obtain ⟨document', config, hd, hl, rfl⟩ := parsePyproject_ok.mp h
    cases parsed.symm.trans hd
    rw [(layerIs_table table).unique hl]
    rfl
  | error problem =>
    rcases parsePyproject_error.mp h with ⟨hn, -⟩ | ⟨document', why, hd, hl, rfl⟩
    · cases parsed.symm.trans hn
    · cases parsed.symm.trans hd
      rw [(layerIs_table table).unique hl]
      rfl

/-- The table of defaults is read strictly. It is accepted exactly if every key is known and has a value
of its type, and then each field is what its key makes it, or its default; the first entry that does not
fit is reported otherwise. An unknown key is an error, whatever else is there. Texts that say the same in
another order are read alike, and so are their tables if only these say the same. -/
theorem layerTable_strict (parsed : Toml.parse? content = some document)
    (table : At ["tool", "kodegen-layer"] document (.table entries)) :
    ((∃ found, parsePyproject content = .ok found) ↔
        ∀ key value, (key, value) ∈ entries → Fits key value) ∧
      (∀ found, parsePyproject content = .ok found → Decodes entries found.layer) ∧
      (∀ problem, parsePyproject content = .error problem →
        ∃ why, problem = .layer why ∧ FirstMisfit entries why) ∧
      (∀ key value, (key, value) ∈ entries → key ∉ keys →
        ∃ why, parsePyproject content = .error (.layer why)) ∧
      (∀ other, Toml.SameAt [] content other → parsePyproject other = parsePyproject content) ∧
      ∀ other, Toml.SameAt ["tool", "kodegen-layer"] content other →
        (parsePyproject other).map layer = (parsePyproject content).map layer := by
  have read := parsePyproject_layer parsed table
  have accepted : (∃ found, parsePyproject content = .ok found) ↔
      ∀ key value, (key, value) ∈ entries → Fits key value := by
    have decoded : (∃ config, ofEntries {} entries = .ok config) ↔
        ∀ key value, (key, value) ∈ entries → Fits key value := ofEntries_ok_iff
    rw [← decoded]
    cases hp : parsePyproject content <;> cases he : ofEntries {} entries <;>
      simp [hp, he, Except.map, Except.mapError] at read ⊢
  have refused : ∀ problem, parsePyproject content = .error problem →
      ∃ why, problem = .layer why ∧ FirstMisfit entries why := by
    intro problem h
    rw [h] at read
    cases he : ofEntries {} entries with
    | ok config => simp [he, Except.map, Except.mapError] at read
    | error why =>
      simp only [he, Except.map, Except.mapError, Except.error.injEq] at read
      exact ⟨why, read, ofEntries_error he⟩
  refine ⟨accepted, fun found h => ?_, refused, fun key value hm unknown => ?_, fun other same => ?_,
    fun other same => ?_⟩
  · rw [h] at read
    cases he : ofEntries {} entries with
    | ok config =>
      simp only [he, Except.map, Except.mapError, Except.ok.injEq] at read
      exact read ▸ decodes_ofEntries (nodup_layerTable parsed table) he
    | error why => simp [he, Except.map, Except.mapError] at read
  · cases h : parsePyproject content with
    | ok found => exact absurd (accepted.mp ⟨found, h⟩ key value hm).known unknown
    | error problem =>
      obtain ⟨why, rfl, -⟩ := refused problem h
      exact ⟨why, rfl⟩
  · rw [parsePyproject, parsePyproject, same.parse_eq]
  · obtain ⟨document₁, document₂, value, h₁, h₂, found₁, found₂⟩ := same.value_eq
    cases parsed.symm.trans h₁
    obtain rfl := at_unique table found₁
    rw [parsePyproject_layer h₁ table, parsePyproject_layer h₂ found₂]

/-- A key that is spelled in another way is an error, next to one that is spelled right. -/
theorem misspelled_refused : ∃ why, parsePyproject
    "[tool.kodegen-layer]\nlayer_prefix = \"python\"\nfrontend = \"pip\"\n" = .error (.layer why) := by
  generalize ht : "[tool.kodegen-layer]\nlayer_prefix = \"python\"\nfrontend = \"pip\"\n" = text
  have found : (((Toml.written? text).bind fun fields =>
      (Toml.Item.table .header fields).at? ["tool", "kodegen-layer"]).bind (·.get? "layer_prefix")).isSome := by
    rw [← ht]
    decide +kernel
  obtain ⟨item, found⟩ := Option.isSome_iff_exists.mp found
  obtain ⟨x, hx, found⟩ := Option.bind_eq_some_iff.mp found
  obtain ⟨fields, written, hx⟩ := Option.bind_eq_some_iff.mp hx
  obtain ⟨document, entries, parsed, table, entry⟩ := Toml.table_of_written written hx found
  exact (layerTable_strict parsed table).2.2.2.1 _ _ entry (by decide)

end LayerPack.Metadata
