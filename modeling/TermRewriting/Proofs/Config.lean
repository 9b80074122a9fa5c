import TermRewriting.Proofs.Toml
import TermRewriting.Toml.Settings

/-! Settings that are saved and loaded again. A format has no entry for a setting without limit, and reading
takes a missing entry for the default. So all comes back but an unlimited number of passes, which comes back
with the default limit. -/

namespace TermRewriting

namespace Config

inductive Key where
  | maxIterations
  | heads
  | maxResults

def Key.text : Key → String
  | .maxIterations => "max_iterations"
  | .heads => "heads"
  | .maxResults => "max_results"

inductive Datum where
  | count (n : Nat)
  | truth (b : Bool)

/-- The value of a setting; a limit may have none. -/
def datum? (c : Config) : Key → Option Datum
  | .maxIterations => c.maxIterations.map .count
  | .heads => some (.truth c.heads)
  | .maxResults => c.maxResults.map .count

/-- What is documented of a format, given the entries that its texts have under their keys. -/
structure Format.Documented (format : Format) (entries : String → String → Option Datum) : Prop where
  /-- A setting without value is omitted. -/
  omits : ∀ {c text}, format.write c = some text → ∀ key : Key, c.datum? key = none → entries text key.text = none
  /-- A value is written as it is. -/
  writes : ∀ {c text}, format.write c = some text → ∀ (key : Key) (e : Datum), c.datum? key = some e →
    entries text key.text = some e
  /-- What has been written can be read. -/
  readable : ∀ {c text}, format.write c = some text → (format.read text).isSome = true
  /-- A value is read as it stands there. -/
  reads : ∀ {c text}, format.read text = some c → ∀ (key : Key) (e : Datum), entries text key.text = some e →
    c.datum? key = some e
  /-- A missing key takes the value of the default settings. -/
  defaults : ∀ {c text}, format.read text = some c → ∀ key : Key, entries text key.text = none →
    c.datum? key = ({} : Config).datum? key

theorem eq_of_datum? {c d : Config} (same : ∀ key, c.datum? key = d.datum? key) : c = d := by
  have limit {m n : Option Nat} (eq : m.map Datum.count = n.map Datum.count) : m = n :=
    Option.map_injective (fun _ _ => Datum.count.inj) eq
  obtain ⟨iterations, heads, results⟩ := c
  obtain ⟨iterations', heads', results'⟩ := d
  obtain rfl : iterations = iterations' := limit (same .maxIterations)
  obtain rfl : heads = heads' := Datum.truth.inj (Option.some.inj (same .heads))
  obtain rfl : results = results' := limit (same .maxResults)
  rfl

variable {format : Format} {entries : String → String → Option Datum} {c : Config} {text : String}

/-- Reading what has been written keeps the values, and gives a setting without value its default. -/
theorem Format.Documented.read_write (documented : format.Documented entries) (written : format.write c = some text) :
    format.read text = some { c with maxIterations := c.maxIterations.or ({} : Config).maxIterations } := by
  obtain ⟨d, read⟩ := Option.isSome_iff_exists.mp (documented.readable written)
  have same (key : Key) : d.datum? key = (c.datum? key).or (({} : Config).datum? key) := by
    cases value : c.datum? key with
    | none => exact documented.defaults read key (documented.omits written key value)
    | some e => exact documented.reads read key e (documented.writes written key e value)
  rw [read]
  refine congrArg some (eq_of_datum? fun key => (same key).trans ?_)
  obtain ⟨_ | _, _, _ | _⟩ := c <;> cases key <;> rfl

theorem validate_eq_ok_iff : c.validate = .ok () ↔ c.maxIterations ≠ some 0 := by
  unfold validate
  split
  · next zero => simp [zero]
  · next positive => simp [positive]

theorem load_of_read (read : format.read text = some c) (valid : c.validate = .ok ()) :
    load format (some text) {} = .ok c := by
  have unchanged : c.override {} = c := rfl
  unfold load
  simp only [read, unchanged, valid]
  rfl

theorem write_of_save (saved : c.save format = .ok text) : format.write c = some text := by
  unfold save at saved
  split at saved
  · next written => rw [written, Except.ok.inj saved]
  · cases saved

end Config

namespace Toml

open Config (Datum Key)

/-- A value that a setting may have; nothing else is told apart. -/
def Value.datum? : Value → Option Datum
  | .integer n => if 0 ≤ n then some (.count n.toNat) else none
  | .boolean b => some (.truth b)
  | .float | .string _ | .array => none

def Value.ofDatum : Datum → Value
  | .count n => .integer n
  | .truth b => .boolean b

theorem Value.datum?_ofDatum (e : Datum) : (Value.ofDatum e).datum? = some e := by
  cases e with
  | count n => rw [ofDatum, datum?, if_pos (Int.natCast_nonneg n), Int.toNat_natCast]
  | truth b => rfl

def entries (text key : String) : Option Datum := ((document? text).bind (·.lookup key)).bind Value.datum?

def limitLines (key : String) : Option Nat → List (String × Value)
  | some n => [(key, .integer n)]
  | none => []

def settingLines (c : Config) : List (String × Value) :=
  limitLines "max_iterations" c.maxIterations ++ ("heads", .boolean c.heads) :: limitLines "max_results" c.maxResults

theorem countLine_eq_write (key : String) (limit : Option Nat) : countLine key limit = write (limitLines key limit) := by
  cases limit with
  | none => rfl
  | some n =>
    rw [countLine, limitLines, write_cons, Value.word, Decimal.ofInt_natCast]
    exact String.append_empty.symm

/-- Integers of a document have 64 bits, one of them for the sign. -/
def Fits (limit : Option Nat) : Prop := ∀ n ∈ limit, n ≤ 0x7FFFFFFFFFFFFFFF

theorem any_eq_false_iff_fits (limit : Option Nat) : limit.any (0x7FFFFFFFFFFFFFFF < ·) = false ↔ Fits limit := by
  cases limit <;> simp [Fits]

theorem writeSettings_eq_some_iff {c : Config} {text : String} :
    writeSettings c = some text ↔ (Fits c.maxIterations ∧ Fits c.maxResults) ∧ text = write (settingLines c) := by
  have written : countLine "max_iterations" c.maxIterations
      ++ "heads = " ++ (if c.heads then "true" else "false") ++ "\n"
      ++ countLine "max_results" c.maxResults = write (settingLines c) := by
    rw [countLine_eq_write, countLine_eq_write, settingLines, write_append, write_cons]
    simp only [String.append_assoc]
    rfl
  rw [writeSettings, written, ← any_eq_false_iff_fits, ← any_eq_false_iff_fits, ← Bool.or_eq_false_iff]
  split
  · next unfit => simp [unfit]
  · next fit =>
    rw [Bool.not_eq_true] at fit
    simp [fit, eq_comm]

theorem plain_of_fits {key : String} {limit : Option Nat} (fit : Fits limit) :
    ∀ e ∈ limitLines key limit, e.2.isPlain = true := by
  cases limit with
  | none => simp [limitLines]
  | some n =>
    have few : n ≤ 0x7FFFFFFFFFFFFFFF := fit n rfl
    simp only [limitLines, List.mem_singleton, forall_eq, Value.isPlain, fitsInteger, Bool.and_eq_true,
      decide_eq_true_eq]
    omega

theorem keys_sublist (c : Config) :
    ((settingLines c).map Prod.fst).Sublist ["max_iterations", "heads", "max_results"] := by
  obtain ⟨_ | _, _, _ | _⟩ := c <;> simp [settingLines, limitLines]

theorem document?_write_settingLines {c : Config} (fit : Fits c.maxIterations ∧ Fits c.maxResults) :
    document? (write (settingLines c)) = some (settingLines c) := by
  have bare : ["max_iterations", "heads", "max_results"].all isBare = true := by decide
  refine document?_write (fun e member => ?_) (fun e member => ?_) ?_
  · exact List.all_eq_true.mp bare e.1 ((keys_sublist c).subset (List.mem_map_of_mem member))
  · rcases List.mem_append.mp member with iterations | rest
    · exact plain_of_fits fit.1 e iterations
    · rcases List.mem_cons.mp rest with rfl | results
      · rfl
      · exact plain_of_fits fit.2 e results
  · exact (keys_sublist c).nodup (by decide)

theorem lookup_settingLines (c : Config) (key : Key) :
    (settingLines c).lookup key.text = (c.datum? key).map Value.ofDatum := by
  obtain ⟨_ | _, _, _ | _⟩ := c <;> cases key <;> rfl

theorem entries_of_write {c : Config} {text : String} (written : settings.write c = some text) (key : Key) :
    entries text key.text = c.datum? key := by
  obtain ⟨fit, rfl⟩ := writeSettings_eq_some_iff.mp written
  rw [entries, document?_write_settingLines fit, Option.bind_some, lookup_settingLines, Option.bind_map]
  cases c.datum? key with
  | none => rfl
  | some e => exact Value.datum?_ofDatum e

/-- A setting has the value that stands in the document, or the default if there is none. -/
theorem datum_of_setting {α : Type} {read : Value → Option α} (wrap : α → Option Datum)
    (same : ∀ v a, read v = some a → ∃ e, v.datum? = some e ∧ wrap a = some e) {default a : α}
    {entry : Option Value} (found : setting read default entry = some a) :
    wrap a = (entry.bind Value.datum?).or (wrap default) := by
  cases entry with
  | none => exact congrArg wrap (Option.some.inj found).symm
  | some v =>
    obtain ⟨e, stands, wrapped⟩ := same v a found
    rw [Option.bind_some, stands, wrapped, Option.some_or]

theorem datum_of_readCount (v : Value) (limit : Option Nat) (read : readCount v = some limit) :
    ∃ e, v.datum? = some e ∧ limit.map Datum.count = some e := by
  cases v with
  | integer n =>
    by_cases natural : 0 ≤ n
    · rw [readCount, if_pos natural] at read
      obtain rfl := Option.some.inj read
      exact ⟨.count n.toNat, if_pos natural, rfl⟩
    · rw [readCount, if_neg natural] at read
      cases read
  | boolean b | float | string _ | array => cases read

theorem datum_of_readTruth (v : Value) (b : Bool) (read : readTruth v = some b) :
    ∃ e, v.datum? = some e ∧ some (Datum.truth b) = some e := by
  cases v with
  | boolean c =>
    obtain rfl := Option.some.inj read
    exact ⟨.truth c, rfl, rfl⟩
  | integer n | float | string _ | array => cases read

theorem datum?_of_read {c : Config} {text : String} (read : settings.read text = some c) (key : Key) :
    c.datum? key = (entries text key.text).or (({} : Config).datum? key) := by
  obtain ⟨found, document, rest⟩ := Option.bind_eq_some_iff.mp read
  obtain ⟨iterations, first, rest⟩ := Option.bind_eq_some_iff.mp rest
  obtain ⟨heads, second, rest⟩ := Option.bind_eq_some_iff.mp rest
  obtain ⟨results, third, rest⟩ := Option.bind_eq_some_iff.mp rest
  obtain rfl := Option.some.inj rest
  rw [entries, document, Option.bind_some]
  cases key with
  | maxIterations => exact datum_of_setting (Option.map Datum.count) datum_of_readCount first
  | heads => exact datum_of_setting (fun b => some (Datum.truth b)) datum_of_readTruth second
  | maxResults => exact datum_of_setting (Option.map Datum.count) datum_of_readCount third

theorem setting_readCount (limit default : Option Nat) :
    setting readCount default (limit.map fun n : Nat => .integer n) = some (limit.or default) := by
  cases limit with
  | none => rfl
  | some n =>
    change readCount (.integer n) = some (some n)
    rw [readCount, if_pos (Int.natCast_nonneg n)]
    rfl

theorem isSome_read_of_write {c : Config} {text : String} (written : settings.write c = some text) :
    (settings.read text).isSome = true := by
  obtain ⟨fit, rfl⟩ := writeSettings_eq_some_iff.mp written
  have iterations := lookup_settingLines c .maxIterations
  have heads := lookup_settingLines c .heads
  have results := lookup_settingLines c .maxResults
  simp only [Key.text, Config.datum?, Option.map_map, Function.comp_def, Value.ofDatum] at iterations heads results
  change (readSettings _).isSome = true
  simp only [readSettings, document?_write_settingLines fit, Option.bind_eq_bind, Option.bind_some, iterations, heads,
    results, setting_readCount]
  rfl

theorem documented_settings : settings.Documented entries where
  omits written key missing := (entries_of_write written key).trans missing
  writes written key e value := (entries_of_write written key).trans value
  readable written := isSome_read_of_write written
  reads read key e found := by rw [datum?_of_read read key, found, Option.some_or]
  defaults read key missing := by rw [datum?_of_read read key, missing, Option.none_or]

end Toml

namespace Config

variable {format : Format} {entries : String → String → Option Datum} {c : Config} {text : String}

/-- In a format that does what is documented, what is loaded is what was saved, with the default limit where
there was none on the passes. -/
theorem load_save (documented : format.Documented entries) (valid : c.validate = .ok ())
    (saved : c.save format = .ok text) :
    load format (some text) {} = .ok { c with maxIterations := c.maxIterations.or ({} : Config).maxIterations }
      ∧ (load format (some text) {} = .ok c ↔ c.maxIterations ≠ none) := by
  have loaded : load format (some text) {} =
      .ok { c with maxIterations := c.maxIterations.or ({} : Config).maxIterations } := by
    refine load_of_read (documented.read_write (write_of_save saved)) (validate_eq_ok_iff.mpr ?_)
    rw [validate_eq_ok_iff] at valid
    cases limit : c.maxIterations with
    | none => simp
    | some n => simpa [limit] using valid
  refine ⟨loaded, ?_⟩
  rw [loaded]
  obtain ⟨_ | n, heads, maxResults⟩ := c
  · simp
  · simp

theorem load_save_limited :
    let c : Config := { maxIterations := some 12, heads := true, maxResults := some 0x7FFFFFFFFFFFFFFF }
    let text := "max_iterations = 12\nheads = true\nmax_results = 9223372036854775807\n"
    Toml.settings.Documented Toml.entries ∧ c.validate = .ok () ∧ c.save Toml.settings = .ok text ∧
      load Toml.settings (some text) {} = .ok c :=
  ⟨Toml.documented_settings, rfl, rfl,
    (load_save Toml.documented_settings rfl rfl).2.mpr (Option.some_ne_none 12)⟩

/-- Passes without limit are valid and can be saved, but the file says nothing about them. -/
theorem unlimited_lost :
    let c : Config := { maxIterations := none }
    c.validate = .ok () ∧ c.save Toml.settings = .ok "heads = false\n" ∧
      load Toml.settings (some "heads = false\n") {} ≠ .ok c := by
  refine ⟨rfl, rfl, fun kept => ?_⟩
  have limited : Toml.settings.read "heads = false\n" = some { maxIterations := some 65535 } := by decide +kernel
  rw [load_of_read limited rfl] at kept
  cases kept

end Config

end TermRewriting
