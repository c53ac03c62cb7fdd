import Gml.Scan

/-!
# What a scan adds to a context

A scan makes symbols of the scripts and objects that it found. Names that are symbols already stay
what they are; the new ones get numbers one after the other, in the order of the names, above all
numbers that their kind has (`Scan.addSymbols_numbers`). Scripts come first, so that a name that is
found as both is a script.

`Scan.Extends` says what becomes of a context, and `Scan.extends_apply` that it does so, and that
nothing is left to do for a second time.
-/

namespace Gml

/-! ### Tables -/

namespace Table

variable {κ α : Type} [DecidableEq κ] {key : κ} {value : α} {entries : List (κ × α)}

/-- A key is looked for in front first. -/
theorem find?_append (key : κ) (front back : List (κ × α)) :
    find? key (front ++ back) = (find? key front).or (find? key back) := by
  induction front with
  | nil => simp [find?]
  | cons entry front ih =>
    by_cases h : entry.1 = key
    · simp [find?, h]
    · simp [find?, h, ih]

/-- What is found is there. -/
theorem mem_of_find? (h : find? key entries = some value) : (key, value) ∈ entries := by
  induction entries with
  | nil => simp [find?] at h
  | cons entry entries ih =>
    by_cases hkey : entry.1 = key
    · simp only [find?, hkey, if_true, Option.some.injEq] at h
      subst hkey h
      exact List.mem_cons_self
    · simp only [find?, hkey, if_false] at h
      exact List.mem_cons_of_mem _ (ih h)

/-- What is not found is not there. -/
theorem find?_eq_none_iff : find? key entries = none ↔ ∀ entry ∈ entries, entry.1 ≠ key := by
  induction entries with
  | nil => simp [find?]
  | cons entry entries ih =>
    by_cases h : entry.1 = key
    · simp [find?, h]
    · simp [find?, h, ih]

/-- The first entry of a key counts. If there are no others, all count. -/
theorem find?_eq_some_of_mem (hkeys : (entries.map Prod.fst).Nodup) (h : (key, value) ∈ entries) :
    find? key entries = some value := by
  induction entries with
  | nil => simp at h
  | cons entry entries ih =>
    simp only [List.map_cons, List.nodup_cons] at hkeys
    rcases List.mem_cons.1 h with rfl | h
    · simp [find?]
    · have hne : entry.1 ≠ key := by
        rintro rfl
        exact hkeys.1 (List.mem_map.2 ⟨_, h, rfl⟩)
      simp [find?, hne, ih hkeys.2 h]

/-- A new key is set at the end. -/
theorem set_of_find?_eq_none (h : find? key entries = none) :
    set key value entries = entries ++ [(key, value)] := by
  induction entries with
  | nil => rfl
  | cons entry entries ih =>
    by_cases hkey : entry.1 = key
    · simp [find?, hkey] at h
    · simp only [find?, hkey, if_false] at h
      simp [set, hkey, ih h]

/-- An old value changes nothing. -/
theorem set_of_find?_eq_some (h : find? key entries = some value) :
    set key value entries = entries := by
  induction entries with
  | nil => simp [find?] at h
  | cons entry entries ih =>
    by_cases hkey : entry.1 = key
    · simp only [find?, hkey, if_true, Option.some.injEq] at h
      subst hkey h
      simp [set]
    · simp only [find?, hkey, if_false] at h
      simp [set, hkey, ih h]

/-- So it is in a table. -/
theorem insert_of_get? {table : Table κ α} (h : table.get? key = some value) :
    table.insert key value = table := by
  unfold insert
  rw [set_of_find?_eq_some h]

/-- No key occurs twice. -/
theorem nodup_keys_insert {table : Table κ α} (h : table.keys.Nodup) (key : κ) (value : α) :
    (table.insert key value).keys.Nodup := by
  have hset : ∀ entries : List (κ × α), (set key value entries).map Prod.fst =
      if key ∈ entries.map Prod.fst then entries.map Prod.fst
      else entries.map Prod.fst ++ [key] := by
    intro entries
    induction entries with
    | nil => simp [set]
    | cons entry entries ih =>
      by_cases hkey : entry.1 = key
      · simp [set, hkey]
      · by_cases hmem : key ∈ entries.map Prod.fst
        · simp only [set, hkey, if_false, List.map_cons, ih, hmem, if_true, List.mem_cons, or_true]
        · have hne : ¬ key = entry.1 := fun heq => hkey heq.symm
          simp only [set, hkey, if_false, List.map_cons, ih, hmem, List.mem_cons, hne, or_self,
            List.cons_append]
  change ((set key value table.entries).map Prod.fst).Nodup
  rw [hset]
  by_cases hmem : key ∈ table.entries.map Prod.fst
  · rwa [if_pos hmem]
  · rw [if_neg hmem, List.nodup_append]
    refine ⟨h, List.pairwise_singleton _ _, ?_⟩
    intro a ha b hb
    obtain rfl := List.mem_singleton.1 hb
    rintro rfl
    exact hmem ha

/-- Entries that are set one after the other are there in the end, and nothing else has changed. -/
theorem get?_foldl_insert (hkeys : (entries.map Prod.fst).Nodup) (table : Table κ α) (key : κ) :
    (entries.foldl (fun table entry => table.insert entry.1 entry.2) table).get? key =
      (find? key entries).or (table.get? key) := by
  induction entries generalizing table with
  | nil => simp [find?]
  | cons entry entries ih =>
    simp only [List.map_cons, List.nodup_cons] at hkeys
    rw [List.foldl_cons, ih hkeys.2, get?_insert]
    by_cases h : entry.1 = key
    · have hnone : find? key entries = none := by
        rw [find?_eq_none_iff]
        rintro other hother rfl
        exact hkeys.1 (h ▸ List.mem_map_of_mem hother)
      simp [find?, h, hnone]
    · simp [find?, h]

/-- Entries that are there already need not be set. -/
theorem foldl_insert_eq (table : Table κ α)
    (h : ∀ entry ∈ entries, table.get? entry.1 = some entry.2) :
    entries.foldl (fun table entry => table.insert entry.1 entry.2) table = table := by
  induction entries with
  | nil => rfl
  | cons entry entries ih =>
    rw [List.foldl_cons, insert_of_get? (h entry List.mem_cons_self)]
    exact ih fun other hother => h other (List.mem_cons_of_mem _ hother)

end Table

/-! ### Scans in order -/

/-- Names stay in order. -/
theorem pairwise_insertName (name : String) {names : List String} (h : names.Pairwise (· < ·)) :
    (insertName name names).Pairwise (· < ·) := by
  induction names with
  | nil => exact List.pairwise_singleton _ _
  | cons first rest ih =>
    obtain ⟨hfirst, hrest⟩ := List.pairwise_cons.1 h
    unfold insertName
    by_cases heq : name = first
    · rwa [if_pos heq]
    rw [if_neg heq]
    by_cases hlt : name < first
    · rw [if_pos hlt, List.pairwise_cons]
      refine ⟨?_, h⟩
      intro other hother
      rcases List.mem_cons.1 hother with rfl | hother
      · exact hlt
      · exact String.lt_trans hlt (hfirst other hother)
    · rw [if_neg hlt, List.pairwise_cons]
      refine ⟨?_, ih hrest⟩
      intro other hother
      rcases mem_insertName.1 hother with rfl | hother
      · apply Decidable.by_contra
        intro hnot
        exact heq (String.le_antisymm (String.not_lt.1 hnot) (String.not_lt.1 hlt))
      · exact hfirst other hother

namespace Scan

/-- Names are found in order and without repetitions, and each enumeration once. -/
structure Ordered (scan : Scan) : Prop where
  scripts : scan.scripts.Pairwise (· < ·)
  objects : scan.objects.Pairwise (· < ·)
  enums : scan.enums.keys.Nodup

/-- Nothing is in order. -/
theorem ordered_empty : Ordered {} :=
  ⟨.nil, .nil, .nil⟩

/-- No name in order occurs twice. -/
theorem nodup_of_pairwise {names : List String} (h : names.Pairwise (· < ·)) : names.Nodup := by
  apply h.imp
  rintro first _ hlt rfl
  exact String.lt_irrefl _ hlt

namespace Ordered

variable {scan : Scan}

/-- A script keeps the order. -/
theorem addScript (h : scan.Ordered) (name : String) : (scan.addScript name).Ordered :=
  ⟨pairwise_insertName name h.scripts, h.objects, h.enums⟩

/-- An object keeps it. -/
theorem addObject (h : scan.Ordered) (name : String) : (scan.addObject name).Ordered :=
  ⟨h.scripts, pairwise_insertName name h.objects, h.enums⟩

/-- A call keeps it. -/
theorem addCall (h : scan.Ordered) (name : String) : (scan.addCall name).Ordered := by
  unfold Scan.addCall
  split
  · exact h
  · exact ⟨h.scripts, h.objects, h.enums⟩

/-- A text adds enumerations and calls, one after the other. -/
theorem addText (h : scan.Ordered) (text : String) : (scan.addText text).Ordered :=
  addText_induction text
    (fun _ _ _ h => ⟨h.scripts, h.objects, Table.nodup_keys_insert h.enums _ _⟩)
    (fun _ name h => h.addCall name) h

end Ordered

/-! ### Numbers for names -/

/-- The largest number that a symbol may have if another one is to come after it. -/
def lastReference : Int := 2147483646

/-- Names with numbers one after the other. -/
def numbered (kind : SymbolKind) : Int32 → List String → List (String × Symbol)
  | _, [] => []
  | next, name :: rest => (name, { kind, reference := next }) :: numbered kind (next + 1) rest

/-- Symbols that leave room for more. -/
def Roomy (entries : List (String × Symbol)) : Prop :=
  ∀ entry ∈ entries, entry.2.kind ≠ .asset → entry.2.reference.toInt ≤ lastReference

/-- A number that is not the last has a successor. -/
theorem toInt_add_one {n : Int32} (h : n.toInt ≤ lastReference) : (n + 1).toInt = n.toInt + 1 := by
  have hle := n.le_toInt
  have hone : (1 : Int32).toInt = 1 := rfl
  rw [Int32.toInt_add, hone]
  unfold lastReference at h
  apply Int.bmod_eq_of_le <;> omega

variable {kind : SymbolKind} {next : Int32} {names : List String} {name : String} {symbol : Symbol}
  {symbols : Table String Symbol}

/-- Every name gets a number. -/
theorem map_fst_numbered : (numbered kind next names).map Prod.fst = names := by
  induction names generalizing next with
  | nil => rfl
  | cons name names ih => simp [numbered, ih]

/-- No other name gets one. -/
theorem find?_numbered_eq_none_iff :
    Table.find? name (numbered kind next names) = none ↔ name ∉ names := by
  induction names generalizing next with
  | nil => simp [numbered, Table.find?]
  | cons first names ih =>
    by_cases h : first = name
    · simp [numbered, Table.find?, h]
    · simp [numbered, Table.find?, h, ih, Ne.symm h]

/-- A number is of its kind. -/
theorem kind_of_mem_numbered {entry : String × Symbol} (h : entry ∈ numbered kind next names) :
    entry.2.kind = kind := by
  induction names generalizing next with
  | nil => simp [numbered] at h
  | cons name names ih =>
    rcases List.mem_cons.1 h with rfl | h
    · rfl
    · exact ih h

/-- The name with an index gets the number that is so much further on. -/
theorem exists_numbered (hkind : kind ≠ .asset) (hroomy : Roomy (numbered kind next names))
    {i : Nat} (h : names[i]? = some name) :
    ∃ symbol, (name, symbol) ∈ numbered kind next names ∧ symbol.kind = kind ∧
      symbol.reference.toInt = next.toInt + i := by
  induction names generalizing next i with
  | nil => simp at h
  | cons first names ih =>
    have hnext : next.toInt ≤ lastReference := hroomy (first, ⟨kind, next⟩) List.mem_cons_self hkind
    cases i with
    | zero =>
      cases h
      exact ⟨⟨kind, next⟩, List.mem_cons_self, rfl, by simp⟩
    | succ i =>
      have hrest : Roomy (numbered kind (next + 1) names) :=
        fun entry hentry => hroomy entry (List.mem_cons_of_mem _ hentry)
      obtain ⟨symbol, hmem, hsymbol, hreference⟩ := ih hrest h
      refine ⟨symbol, List.mem_cons_of_mem _ hmem, hsymbol, ?_⟩
      rw [hreference, toInt_add_one hnext]
      omega

/-- The names that are no symbols yet. -/
def fresh (symbols : Table String Symbol) (names : List String) : List String :=
  names.filter (!symbols.contains ·)

/-- Names are fresh if they have no symbol. -/
theorem mem_fresh : name ∈ fresh symbols names ↔ name ∈ names ∧ symbols.get? name = none := by
  simp [fresh, Table.contains]

/-- Numbering goes on after the symbols that are there, with the names that are none. -/
theorem entries_number (hnames : names.Nodup) :
    (number kind next names symbols).entries =
      symbols.entries ++ numbered kind next (fresh symbols names) := by
  induction names generalizing next symbols with
  | nil => simp [number, fresh, numbered]
  | cons name names ih =>
    obtain ⟨hname, hrest⟩ := List.nodup_cons.1 hnames
    unfold number
    by_cases h : symbols.contains name = true
    · have hfresh : fresh symbols (name :: names) = fresh symbols names := by simp [fresh, h]
      rw [if_pos h, ih hrest, hfresh]
    · have hnone : Table.find? name symbols.entries = none := by
        simpa [Table.contains, Table.get?] using h
      have hfresh : fresh symbols (name :: names) = name :: fresh symbols names := by
        simp [fresh, h]
      -- The name that has just been added does not come again.
      have hlater : fresh (symbols.insert name ⟨kind, next⟩) names = fresh symbols names := by
        apply List.filter_congr
        intro other hother
        have hne : name ≠ other := by
          rintro rfl
          exact hname hother
        simp [Table.contains, Table.get?_insert, hne]
      rw [if_neg h, ih hrest, hlater, hfresh]
      change Table.set name _ symbols.entries ++ _ = _
      rw [Table.set_of_find?_eq_none hnone, List.append_assoc]
      rfl

/-- Without fresh names nothing changes. -/
theorem number_of_fresh_eq_nil (h : fresh symbols names = []) :
    number kind next names symbols = symbols := by
  induction names generalizing next with
  | nil => rfl
  | cons name names ih =>
    have hall := List.filter_eq_nil_iff.1 h
    have hname : symbols.contains name = true := by
      simpa using hall name List.mem_cons_self
    unfold number
    rw [if_pos hname]
    apply ih
    rw [fresh, List.filter_eq_nil_iff]
    exact fun other hother => hall other (List.mem_cons_of_mem _ hother)

/-! ### The next number -/

/-- The larger of two numbers. -/
theorem toInt_max (m n : Int32) : (max m n).toInt = max m.toInt n.toInt := by
  change (if m ≤ n then n else m).toInt = _
  by_cases h : m ≤ n
  · rw [if_pos h, Int.max_eq_right (Int32.le_iff_toInt_le.1 h)]
  · rw [if_neg h, Int.max_eq_left]
    rw [Int32.le_iff_toInt_le] at h
    omega

/-- None is larger than the largest. -/
theorem toInt_le_foldl_max (first : Int32) (rest : List Int32) :
    ∀ n ∈ first :: rest, n.toInt ≤ (rest.foldl max first).toInt := by
  induction rest generalizing first with
  | nil =>
    intro n hn
    obtain rfl := List.mem_singleton.1 hn
    exact Int.le_refl _
  | cons second rest ih =>
    have hmax := ih (max first second) (max first second) List.mem_cons_self
    rw [toInt_max] at hmax
    intro n hn
    rw [List.foldl_cons]
    rcases List.mem_cons.1 hn with rfl | hn
    · omega
    rcases List.mem_cons.1 hn with rfl | hn
    · omega
    · exact ih _ n (List.mem_cons_of_mem _ hn)

/-- The next number is above all that the kind has. -/
theorem lt_nextReference (hmem : (name, symbol) ∈ symbols.entries)
    (hle : symbol.reference.toInt ≤ lastReference) :
    symbol.reference.toInt < (nextReference symbol.kind symbols).toInt := by
  have hused : symbol.reference + 1 ∈ symbols.entries.filterMap fun other =>
      if other.2.kind = symbol.kind then some (other.2.reference + 1) else none := by
    rw [List.mem_filterMap]
    exact ⟨(name, symbol), hmem, if_pos rfl⟩
  apply Int.lt_of_add_one_le
  rw [← toInt_add_one hle]
  unfold nextReference
  dsimp only
  generalize symbols.entries.filterMap _ = used at hused
  cases used with
  | nil => simp at hused
  | cons first rest => exact toInt_le_foldl_max first rest _ hused

/-! ### Symbols of one kind -/

/-- New symbols come after the old ones. -/
theorem entries_addSymbols (hnames : names.Nodup) :
    (addSymbols kind names symbols).entries =
      symbols.entries ++ numbered kind (nextReference kind symbols) (fresh symbols names) :=
  entries_number hnames

/-- A symbol is old or new. -/
theorem get?_addSymbols (hnames : names.Nodup) :
    (addSymbols kind names symbols).get? name = (symbols.get? name).or
      (Table.find? name (numbered kind (nextReference kind symbols) (fresh symbols names))) := by
  rw [Table.get?, entries_addSymbols hnames, Table.find?_append]
  rfl

/-- Old symbols stay. -/
theorem get?_addSymbols_of_some (hnames : names.Nodup) (h : symbols.get? name = some symbol) :
    (addSymbols kind names symbols).get? name = some symbol := by
  rw [get?_addSymbols hnames, h, Option.some_or]

/-- A symbol that was not there is new. -/
theorem mem_fresh_of_get? (hnames : names.Nodup) (hnone : symbols.get? name = none)
    (h : (addSymbols kind names symbols).get? name = some symbol) :
    name ∈ fresh symbols names ∧ symbol.kind = kind := by
  rw [get?_addSymbols hnames, hnone, Option.none_or] at h
  refine ⟨?_, kind_of_mem_numbered (Table.mem_of_find? h)⟩
  apply Decidable.by_contra
  intro hnot
  rw [find?_numbered_eq_none_iff.2 hnot] at h
  cases h

/-- The new names get numbers one after the other, from the next one on. -/
theorem addSymbols_numbers (hkind : kind ≠ .asset) (hnames : names.Nodup)
    (hroomy : Roomy (addSymbols kind names symbols).entries) {i : Nat}
    (h : (fresh symbols names)[i]? = some name) :
    ∃ symbol, (addSymbols kind names symbols).get? name = some symbol ∧ symbol.kind = kind ∧
      symbol.reference.toInt = (nextReference kind symbols).toInt + i := by
  rw [entries_addSymbols hnames] at hroomy
  have hnew : Roomy (numbered kind (nextReference kind symbols) (fresh symbols names)) :=
    fun entry hentry => hroomy entry (List.mem_append_right _ hentry)
  obtain ⟨symbol, hmem, hsymbol, hreference⟩ := exists_numbered hkind hnew h
  refine ⟨symbol, ?_, hsymbol, hreference⟩
  have hkeys : ((numbered kind (nextReference kind symbols)
      (fresh symbols names)).map Prod.fst).Nodup := by
    rw [map_fst_numbered]
    exact hnames.filter _
  have hnone := (mem_fresh.1 (List.mem_of_getElem? h)).2
  rw [get?_addSymbols hnames, hnone, Option.none_or, Table.find?_eq_some_of_mem hkeys hmem]

/-- All the names are symbols afterwards, and no others than before. -/
theorem get?_addSymbols_eq_none_iff (hnames : names.Nodup) :
    (addSymbols kind names symbols).get? name = none ↔ symbols.get? name = none ∧ name ∉ names := by
  rw [get?_addSymbols hnames, Option.or_eq_none_iff, find?_numbered_eq_none_iff, mem_fresh]
  constructor
  · rintro ⟨hnone, hnot⟩
    exact ⟨hnone, fun hmem => hnot ⟨hmem, hnone⟩⟩
  · rintro ⟨hnone, hnot⟩
    exact ⟨hnone, fun hmem => hnot hmem.1⟩

/-- Known names add nothing. -/
theorem addSymbols_of_contained (h : ∀ name ∈ names, symbols.get? name ≠ none) :
    addSymbols kind names symbols = symbols := by
  apply number_of_fresh_eq_nil
  rw [List.eq_nil_iff_forall_not_mem]
  intro name hname
  obtain ⟨hmem, hnone⟩ := mem_fresh.1 hname
  exact h name hmem hnone

/-! ### Contexts -/

/-- The names of a kind that a scan adds to symbols, in order. What is found as a script and as an
object is a script. -/
def added (scan : Scan) (symbols : Table String Symbol) : SymbolKind → List String
  | .script => scan.scripts.filter fun name => !symbols.contains name
  | .object => scan.objects.filter fun name => !symbols.contains name && name ∉ scan.scripts
  | .asset => []

/-- What a scan makes of a context. -/
structure Extends (scan : Scan) (context result : Context) : Prop where
  tier : result.versionTier = context.versionTier
  functions : result.builtinFunctions = context.builtinFunctions
  variableNames : result.builtinVariables = context.builtinVariables
  encoding : result.encoding = context.encoding
  /-- Symbols stay what they are. -/
  kept : ∀ name symbol, context.symbols.get? name = some symbol →
    result.symbols.get? name = some symbol
  /-- What was found is a symbol. -/
  named : ∀ name, name ∈ scan.scripts ∨ name ∈ scan.objects → result.symbols.contains name = true
  /-- Nothing else has become one, and the kind is that of what was found. -/
  new : ∀ name symbol, context.symbols.get? name = none →
    result.symbols.get? name = some symbol → name ∈ scan.added context.symbols symbol.kind
  /-- The new symbols of a kind have numbers one after the other, above those that were there. -/
  numbers : ∀ kind, ∃ first : Int,
    (∀ name symbol, context.symbols.get? name = some symbol → symbol.kind = kind →
      symbol.reference.toInt < first) ∧
    ∀ (i : Nat) name, (scan.added context.symbols kind)[i]? = some name →
      ∃ symbol, result.symbols.get? name = some symbol ∧ symbol.kind = kind ∧
        symbol.reference.toInt = first + i
  /-- Enumerations that were found take the place of those that were there. -/
  enums : ∀ name, result.enums.get? name = (scan.enums.get? name).or (context.enums.get? name)

variable {scan : Scan} {context : Context}

/-- The symbols after the scripts have been added. -/
def withScripts (scan : Scan) (context : Context) : Table String Symbol :=
  addSymbols .script scan.scripts context.symbols

/-- Objects come after scripts. -/
theorem symbols_apply : (scan.apply context).symbols =
    addSymbols .object scan.objects (scan.withScripts context) := rfl

/-- Objects that are not scripts are added. -/
theorem added_object (hs : scan.Ordered) :
    scan.added context.symbols .object = fresh (scan.withScripts context) scan.objects := by
  apply List.filter_congr
  intro name _
  have hnone : (scan.withScripts context).get? name = none ↔
      context.symbols.get? name = none ∧ name ∉ scan.scripts :=
    get?_addSymbols_eq_none_iff (nodup_of_pairwise hs.scripts)
  rw [Bool.eq_iff_iff]
  simpa [Table.contains] using hnone.symm

/-- There was room before. -/
theorem roomy_before (hs : scan.Ordered) (h : Roomy (scan.apply context).symbols.entries) :
    Roomy (scan.withScripts context).entries := by
  intro entry hentry
  apply h entry
  rw [symbols_apply, entries_addSymbols (nodup_of_pairwise hs.objects)]
  exact List.mem_append_left _ hentry

/-- Old numbers are smaller than the next. -/
theorem lt_nextReference_of_get? (hroomy : Roomy symbols.entries)
    (h : symbols.get? name = some symbol) (hkind : symbol.kind ≠ .asset) :
    symbol.reference.toInt < (nextReference symbol.kind symbols).toInt :=
  lt_nextReference (Table.mem_of_find? h) (hroomy _ (Table.mem_of_find? h) hkind)

/-- New numbers start after the old ones. -/
theorem numbers_apply (hs : scan.Ordered) (h : Roomy (scan.apply context).symbols.entries)
    (kind : SymbolKind) : ∃ first : Int,
      (∀ name symbol, context.symbols.get? name = some symbol → symbol.kind = kind →
        symbol.reference.toInt < first) ∧
      ∀ (i : Nat) name, (scan.added context.symbols kind)[i]? = some name →
        ∃ symbol, (scan.apply context).symbols.get? name = some symbol ∧ symbol.kind = kind ∧
          symbol.reference.toInt = first + i := by
  have hscripts := nodup_of_pairwise hs.scripts
  have hobjects := nodup_of_pairwise hs.objects
  have hbefore := roomy_before hs h
  cases kind with
  | script =>
    refine ⟨(nextReference .script context.symbols).toInt, ?_, ?_⟩
    · intro name symbol hget hkind
      rw [← hkind]
      refine lt_nextReference_of_get? (fun entry hentry => hbefore entry ?_) hget (by simp [hkind])
      rw [withScripts, entries_addSymbols hscripts]
      exact List.mem_append_left _ hentry
    · intro i name hname
      obtain ⟨symbol, hget, hkind, hreference⟩ :=
        addSymbols_numbers (by decide) hscripts hbefore hname
      exact ⟨symbol, get?_addSymbols_of_some hobjects hget, hkind, hreference⟩
  | object =>
    refine ⟨(nextReference .object (scan.withScripts context)).toInt, ?_, ?_⟩
    · intro name symbol hget hkind
      rw [← hkind]
      apply lt_nextReference_of_get? hbefore (get?_addSymbols_of_some hscripts hget)
      simp [hkind]
    · intro i name hname
      rw [added_object hs] at hname
      exact addSymbols_numbers (by decide) hobjects h hname
  | asset =>
    -- There are none of them, so any number above all others will do.
    refine ⟨2147483648, ?_, ?_⟩
    · intro name symbol _ _
      have hlt := symbol.reference.toInt_lt
      omega
    · intro i name hname
      simp [added] at hname

/-- A new symbol comes from the scan. -/
theorem new_apply (hs : scan.Ordered) (hnone : context.symbols.get? name = none)
    (h : (scan.apply context).symbols.get? name = some symbol) :
    name ∈ scan.added context.symbols symbol.kind := by
  by_cases hscript : (scan.withScripts context).get? name = none
  · obtain ⟨hfresh, hkind⟩ := mem_fresh_of_get? (nodup_of_pairwise hs.objects) hscript h
    rw [hkind, added_object hs]
    exact hfresh
  · obtain ⟨other, hother⟩ := Option.ne_none_iff_exists'.1 hscript
    have hsame : (scan.apply context).symbols.get? name = some other :=
      get?_addSymbols_of_some (nodup_of_pairwise hs.objects) hother
    cases hsame.symm.trans h
    obtain ⟨hfresh, hkind⟩ := mem_fresh_of_get? (nodup_of_pairwise hs.scripts) hnone hother
    rw [hkind]
    exact hfresh

/-- Every name that was found has a symbol. -/
theorem get?_apply_ne_none (hs : scan.Ordered)
    (h : name ∈ scan.scripts ∨ name ∈ scan.objects) :
    (scan.apply context).symbols.get? name ≠ none := by
  rw [symbols_apply, Ne, get?_addSymbols_eq_none_iff (nodup_of_pairwise hs.objects), withScripts,
    get?_addSymbols_eq_none_iff (nodup_of_pairwise hs.scripts)]
  rintro ⟨⟨-, hscript⟩, hobject⟩
  rcases h with h | h
  · exact hscript h
  · exact hobject h

/-- Enumerations that were found come first. -/
theorem enums_apply (hs : scan.Ordered) (name : String) :
    (scan.apply context).enums.get? name =
      (scan.enums.get? name).or (context.enums.get? name) :=
  Table.get?_foldl_insert hs.enums context.enums name

/-- What has been applied is there already. -/
theorem apply_apply (hs : scan.Ordered) :
    scan.apply (scan.apply context) = scan.apply context := by
  have hscripts : addSymbols .script scan.scripts (scan.apply context).symbols =
      (scan.apply context).symbols :=
    addSymbols_of_contained fun name hname => get?_apply_ne_none hs (.inl hname)
  have hobjects : addSymbols .object scan.objects (scan.apply context).symbols =
      (scan.apply context).symbols :=
    addSymbols_of_contained fun name hname => get?_apply_ne_none hs (.inr hname)
  have henums : scan.enums.entries.foldl (fun enums entry => enums.insert entry.1 entry.2)
      (scan.apply context).enums = (scan.apply context).enums := by
    apply Table.foldl_insert_eq
    intro entry hentry
    have hget : scan.enums.get? entry.1 = some entry.2 :=
      Table.find?_eq_some_of_mem hs.enums hentry
    rw [enums_apply hs, hget, Option.some_or]
  change Context.mk _ _ _ (addSymbols .object scan.objects (addSymbols .script scan.scripts
    (scan.apply context).symbols)) (scan.enums.entries.foldl _ (scan.apply context).enums) _ = _
  rw [hscripts, hobjects, henums]

/-- A scan adds what it found to a context and changes nothing else but enumerations of the same
names. If no number is too large for another to come after it, the new numbers of each kind follow
each other and come after those that were there. To apply the scan again changes nothing. -/
theorem extends_apply (hs : scan.Ordered) (h : ∀ entry ∈ (scan.apply context).symbols.entries,
    entry.2.kind ≠ .asset → entry.2.reference.toInt < 2147483647) :
    scan.Extends context (scan.apply context) ∧
      scan.apply (scan.apply context) = scan.apply context := by
  have hroomy : Roomy (scan.apply context).symbols.entries :=
    fun entry hentry hkind => Int.le_of_lt_add_one (h entry hentry hkind)
  refine ⟨?_, apply_apply hs⟩
  constructor
  · rfl
  · rfl
  · rfl
  · rfl
  · intro name symbol hget
    apply get?_addSymbols_of_some (nodup_of_pairwise hs.objects)
    exact get?_addSymbols_of_some (nodup_of_pairwise hs.scripts) hget
  · intro name hname
    exact Option.isSome_iff_ne_none.2 (get?_apply_ne_none hs hname)
  · intro name symbol hnone hget
    exact new_apply hs hnone hget
  · exact numbers_apply hs hroomy
  · exact enums_apply hs

/-- Numbers below zero and gaps between them, a name that is found as a script and as an object, and
names that are symbols of another kind. -/
theorem extends_apply_mixed :
    let context : Context :=
      { symbols := ⟨[("old", ⟨.script, -9⟩), ("low", ⟨.script, -12⟩), ("wall", ⟨.asset, 2147483647⟩),
          ("door", ⟨.object, 4⟩)]⟩
        enums := ⟨[("E", ⟨[("A", 7)]⟩), ("F", ⟨[("B", 8)]⟩)]⟩ }
    let scan := ((((addScript {} "run").addScript "both").addScript "wall").addObject "both").addObject
      "enemy" |>.addText "enum E { A }"
    scan.Extends context (scan.apply context) ∧
      scan.apply (scan.apply context) = scan.apply context ∧
      (scan.apply context).symbols.entries = context.symbols.entries ++
        [("both", ⟨.script, -8⟩), ("run", ⟨.script, -7⟩), ("enemy", ⟨.object, 5⟩)] := by
  intro context scan
  have hs : scan.Ordered :=
    (((((ordered_empty.addScript "run").addScript "both").addScript "wall").addObject
      "both").addObject "enemy").addText "enum E { A }"
  have hroomy : ∀ entry ∈ (scan.apply context).symbols.entries,
      entry.2.kind ≠ .asset → entry.2.reference.toInt < 2147483647 := by decide +kernel
  obtain ⟨hextends, hagain⟩ := extends_apply hs hroomy
  exact ⟨hextends, hagain, by decide +kernel⟩

end Scan

end Gml
