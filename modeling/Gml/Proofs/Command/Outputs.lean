import Gml.Command
import Gml.Proofs.Batch.Schedule
import Gml.Proofs.Outcome
import Gml.Session

/-!
# The files that compiling leaves

The results of a script are written to two files in the folder for results, called like the script
without what follows its last dot. Scripts in different folders can so be called alike, and then the
last one takes the place of the others although all of them count as compiled.

The commands run in a session here, where files are a table from places to contents. The main
statement `Command.outputs_of_compileFiles` says which contents these files have in the end: those of
the last script that is called so. It rests on two facts about files: what one write leaves alone
(`Files.read?_of_write?_other`), and that names that differ lead to different places in one folder.
-/

namespace Gml

/-! ### Paths -/

namespace Path

/-- A text that names something in a folder. -/
structure IsName (name : String) : Prop where
  slash : '/' ∉ name.toList
  nonempty : name ≠ ""
  here : name ≠ "."
  above : name ≠ ".."

variable {name : String}

/-- A name is one piece. -/
theorem pieces_of_no_slash (h : '/' ∉ name.toList) : pieces name = [name] := by
  rw [pieces, List.splitOn_eq_singleton h]
  simp

/-- A name is one piece more. -/
theorem pieces_append_slash (base : String) (h : '/' ∉ name.toList) :
    pieces (base ++ "/" ++ name) = pieces base ++ [name] := by
  have hchars : (base ++ "/" ++ name).toList = base.toList ++ '/' :: name.toList := by simp
  rw [pieces, hchars, List.splitOn_append_cons_self, List.splitOn_eq_singleton h]
  simp [pieces]

/-- A name is not absolute. -/
theorem isAbsolute_of_no_slash (h : '/' ∉ name.toList) : isAbsolute name = false := by
  refine decide_eq_false fun habsolute => h ?_
  exact List.mem_of_head? habsolute

/-- A name in a folder is the last piece of its path. -/
theorem exists_pieces_join (base : String) :
    ∃ front, ∀ name, '/' ∉ name.toList → pieces (join base name) = front ++ [name] := by
  by_cases hempty : base = ""
  · refine ⟨[], fun name hname => ?_⟩
    simp [join, isAbsolute_of_no_slash hname, hempty, pieces_of_no_slash hname]
  · by_cases hlast : base.toList.getLast? = some '/'
    · obtain ⟨front, hfront⟩ := List.getLast?_eq_some_iff.1 hlast
      have hbase : base = String.ofList front ++ "/" := by
        rw [← String.toList_inj, hfront]
        simp
      refine ⟨pieces (String.ofList front), fun name hname => ?_⟩
      rw [← pieces_append_slash _ hname, ← hbase]
      simp [join, isAbsolute_of_no_slash hname, hlast]
    · refine ⟨pieces base, fun name hname => ?_⟩
      rw [← pieces_append_slash _ hname]
      simp [join, isAbsolute_of_no_slash hname, hempty, hlast]

/-- A name does not matter to that. -/
theorem isAbsolute_join (base : String) (h : '/' ∉ name.toList) :
    isAbsolute (join base name) = isAbsolute base := by
  unfold join
  rw [isAbsolute_of_no_slash h, if_neg Bool.false_ne_true]
  by_cases hempty : base = ""
  · rw [if_pos (by simp [hempty]), hempty, String.empty_append, isAbsolute_of_no_slash h]
    rfl
  · have hchars : base.toList ≠ [] := fun hnil => hempty (String.toList_eq_nil_iff.1 hnil)
    obtain ⟨first, rest, hcons⟩ := List.exists_cons_of_ne_nil hchars
    split <;> simp [isAbsolute, hcons]

/-- A path with a name is not empty. -/
theorem join_ne_empty (base : String) (h : name ≠ "") : join base name ≠ "" := by
  unfold join
  split
  · exact h
  · split <;> simp [h]

/-- Parts have no separator. -/
theorem not_mem_of_mem_splitOn {characters part : List Char} {c : Char}
    (h : part ∈ characters.splitOn c) : c ∉ part := by
  induction characters generalizing part with
  | nil =>
    obtain rfl := List.mem_singleton.1 (List.splitOn_nil c ▸ h)
    exact List.not_mem_nil
  | cons first rest ih =>
    rw [List.splitOn_cons_eq_if_modifyHead] at h
    by_cases hfirst : first = c
    · rw [if_pos (by simp [hfirst])] at h
      rcases List.mem_cons.1 h with rfl | h
      · exact List.not_mem_nil
      · exact ih h
    · rw [if_neg (by simp [hfirst])] at h
      obtain ⟨word, words, hwords⟩ := List.exists_cons_of_ne_nil (List.splitOn_ne_nil c rest)
      rw [hwords, List.modifyHead_cons, List.mem_cons] at h
      rw [hwords] at ih
      rcases h with rfl | h
      · exact List.not_mem_cons_of_ne_of_not_mem (Ne.symm hfirst) (ih List.mem_cons_self)
      · exact ih (List.mem_cons_of_mem _ h)

/-- A stem has the characters of its name. -/
theorem mem_of_mem_splitName {c : Char} (h : c ∈ (splitName name).1.toList) : c ∈ name.toList := by
  unfold splitName at h
  dsimp only at h
  split at h
  · exact h
  · exact h
  next stem _ hdrop =>
    have hsuffix := List.dropWhile_suffix (fun c : Char => decide (c ≠ '.')) (l := name.toList.reverse)
    rw [hdrop] at hsuffix
    have hmem : c ∈ stem := by simpa using h
    simpa using hsuffix.subset (List.mem_cons_of_mem _ hmem)

/-- A stem has no slash. -/
theorem slash_not_mem_stem {path stem : String} (h : stem? path = some stem) :
    '/' ∉ stem.toList := by
  obtain ⟨name, hname, rfl⟩ := Option.map_eq_some_iff.1 h
  intro hmem
  have hlast := (Option.filter_eq_some_iff.1 hname).1
  have hpiece := (List.mem_filter.1 (List.mem_of_getLast? hlast)).1
  obtain ⟨part, hpart, rfl⟩ := List.mem_map.1 hpiece
  refine not_mem_of_mem_splitOn hpart ?_
  simpa using mem_of_mem_splitName hmem

end Path

/-! ### Files -/

namespace Files

open Gml.Path

variable {files files' : Files} {bytes : ByteArray} {base name other path : String}

/-- A way is followed in parts. -/
theorem follow?_append (files : Files) (place front rest : List String) :
    files.follow? place (front ++ rest) =
      (files.follow? place front).bind fun folder => files.follow? folder rest := by
  induction front generalizing place with
  | nil => rfl
  | cons piece front ih =>
    simp only [List.cons_append, follow?]
    split
    · rfl
    · split
      · exact ih place
      · split
        · exact ih _
        · exact ih _

/-- The names in a folder lead to places that differ only in the name. -/
theorem exists_place_join (files : Files) (base : String) :
    ∃ folder : Option (List String),
      ∀ name, IsName name → files.place? (join base name) = folder.map (· ++ [name]) := by
  obtain ⟨front, hfront⟩ := exists_pieces_join base
  refine ⟨(files.follow? (files.origin base) front).filter files.hasFolder, fun name hname => ?_⟩
  have horigin : files.origin (join base name) = files.origin base := by
    rw [origin, origin, isAbsolute_join base hname.slash]
  rw [place?, if_neg (join_ne_empty base hname.nonempty), horigin, hfront name hname.slash,
    follow?_append]
  cases files.follow? (files.origin base) front with
  | none => rfl
  | some folder =>
    by_cases hfolder : files.hasFolder folder = true <;>
      simp [follow?, Option.filter, hfolder, hname.nonempty, hname.here, hname.above]

/-- The contents of files do not matter for where a path leads. -/
theorem place?_of_contents (files : Files) (contents : Table (List String) ByteArray)
    (path : String) : { files with contents }.place? path = files.place? path := by
  have hfollow : ∀ place pieces,
      { files with contents }.follow? place pieces = files.follow? place pieces := by
    intro place pieces
    induction pieces generalizing place with
    | nil => rfl
    | cons piece rest ih =>
      simp only [follow?, ih]
      rfl
  simp only [place?, hfollow]
  rfl

/-- A write changes the contents at one place. -/
theorem exists_of_write? (h : files.write? path bytes = some files') :
    ∃ place, files.place? path = some place ∧
      files' = { files with contents := files.contents.insert place bytes } := by
  obtain ⟨place, hplace, h⟩ := Option.bind_eq_some_iff.1 h
  obtain ⟨-, -, h⟩ := Option.bind_eq_some_iff.1 h
  cases h
  exact ⟨place, hplace, rfl⟩

/-- What was written can be read. -/
theorem read?_of_write? (h : files.write? path bytes = some files') :
    files'.read? path = some bytes := by
  obtain ⟨place, hplace, rfl⟩ := exists_of_write? h
  rw [read?, place?_of_contents, hplace]
  show (files.contents.insert place bytes).get? place = some bytes
  rw [Table.get?_insert, if_pos rfl]

/-- A write leaves alone what has another name in the folder. -/
theorem read?_of_write?_other (h : files.write? (join base name) bytes = some files')
    (hname : IsName name) (hother : IsName other) (hne : other ≠ name) :
    files'.read? (join base other) = files.read? (join base other) := by
  obtain ⟨place, hplace, rfl⟩ := exists_of_write? h
  obtain ⟨folder, hfolder⟩ := files.exists_place_join base
  rw [hfolder name hname, Option.map_eq_some_iff] at hplace
  obtain ⟨folder, rfl, rfl⟩ := hplace
  rw [read?, read?, place?_of_contents, hfolder other hother]
  show (files.contents.insert (folder ++ [name]) bytes).get? (folder ++ [other]) = _
  rw [Table.get?_insert, if_neg]
  · rfl
  · intro heq
    exact hne (List.cons.inj (List.append_cancel_left heq)).1.symm

end Files

/-! ### Parts of commands -/

namespace Run

variable {α β : Type} {session session' : Session}

/-- A part of a command succeeds in a session and leaves another one. -/
def Ends (x : Run (StateM Session) α) (session : Session) (a : α) (session' : Session) : Prop :=
  x.run.run session = (.ok a, session')

/-- To give a value. -/
theorem ends_pure {a b : α} : Ends (pure a) session b session' ↔ a = b ∧ session = session' := by
  constructor
  · rintro ⟨⟩
    exact ⟨rfl, rfl⟩
  · rintro ⟨rfl, rfl⟩
    rfl

/-- A sequence. -/
theorem ends_bind {x : Run (StateM Session) α} {f : α → Run (StateM Session) β} {b : β} :
    Ends (x >>= f) session b session' ↔
      ∃ a between, Ends x session a between ∧ Ends (f a) between b session' := by
  unfold Ends
  rw [ExceptT.run_bind, StateT.run_bind]
  rcases hx : x.run.run session with ⟨_ | a, between⟩
  · refine ⟨nofun, ?_⟩
    rintro ⟨a, between', ⟨⟩, -⟩
  · refine ⟨fun h => ⟨a, between, rfl, h⟩, ?_⟩
    rintro ⟨a', between', ⟨⟩, h⟩
    exact h

/-- An action that is evaluated. -/
theorem ends_of_toOption {x : Run (StateM Session) α} {a : α}
    (h : (x.run.run session).1.toOption = some a) : Ends x session a (x.run.run session).2 := by
  unfold Ends
  rcases hx : x.run.run session with ⟨_ | b, last⟩
  · rw [hx] at h
    cases h
  · rw [hx] at h
    cases h
    rfl

/-- An action without failure. -/
theorem ends_lift {x : StateM Session α} {a : α} (h : Ends (ExceptT.lift x) session a session') :
    x.run session = (a, session') := by
  cases h
  rfl

/-- An action that was attempted. -/
theorem ends_attempt {x : StateM Session (Except String α)} {a : α}
    (h : Ends (attempt x) session a session') : x.run session = (.ok a, session') := by
  obtain ⟨result, between, hx, h⟩ := ends_bind.1 h
  rw [show x.run session = (result, between) from ends_lift hx]
  cases result with
  | error message => cases h
  | ok b =>
    obtain ⟨rfl, rfl⟩ := ends_pure.1 h
    rfl

/-- A change of the files. -/
theorem ends_change {request : Files → Option Files} {u : Unit}
    (h : Ends (attempt (Session.change request)) session u session') :
    request session.files = some session'.files := by
  have hrun := ends_attempt h
  unfold Session.change at hrun
  rw [StateT.run_bind, StateT.run_get, pure_bind] at hrun
  cases hrequest : request session.files with
  | none =>
    simp only [hrequest] at hrun
    cases hrun
  | some files =>
    simp only [hrequest] at hrun
    cases hrun
    rfl

/-- A look at the files. -/
theorem ends_ask {request : Files → Option α} {a : α}
    (h : Ends (attempt (Session.ask request)) session a session') :
    request session.files = some a ∧ session' = session := by
  have hrun := ends_attempt h
  unfold Session.ask at hrun
  rw [StateT.run_bind, StateT.run_get, pure_bind] at hrun
  cases hrequest : request session.files with
  | none =>
    simp only [hrequest] at hrun
    cases hrun
  | some b =>
    simp only [hrequest] at hrun
    cases hrun
    exact ⟨rfl, rfl⟩

/-- To print leaves the files alone. -/
theorem files_of_printLine {line : String} {u : Unit}
    (h : Ends (printLine line) session u session') : session'.files = session.files := by
  cases h
  rfl

/-- A text that was read. -/
theorem ends_readText {path text : String} (h : Ends (readText path) session text session') :
    session' = session ∧
      ∃ bytes, session.files.read? path = some bytes ∧ String.fromUTF8? bytes = some text := by
  obtain ⟨bytes, between, hread, hrest⟩ := ends_bind.1 h
  obtain ⟨hbytes, rfl⟩ := ends_ask hread
  cases htext : String.fromUTF8? bytes with
  | none =>
    rw [htext] at hrest
    cases hrest
  | some found =>
    rw [htext] at hrest
    obtain ⟨rfl, rfl⟩ := ends_pure.1 hrest
    exact ⟨rfl, bytes, hbytes, htext⟩

end Run

/-! ### Compiling -/

namespace Command

open Run

/-- What a script in a file is called: its results are called so too. -/
def stem (path : String) : String :=
  (Path.stem? path).getD "out"

/-- The path of a result. -/
def outputPath (out path ending : String) : String :=
  Path.join out (stem path ++ ending)

variable {α : Type} {context : Context} {out : String} {listing : Bool} {session session' : Session}

/-- No stem has a slash. -/
theorem slash_not_mem_stem (path : String) : '/' ∉ (stem path).toList := by
  unfold stem
  cases h : Path.stem? path with
  | none => simp
  | some stem => exact Path.slash_not_mem_stem h

/-- An output has a name. -/
theorem isName_output (path : String) {ending : String} (h : ending ∈ [".bin", ".json"]) :
    Path.IsName (stem path ++ ending) := by
  have hending : '/' ∉ ending.toList ∧ 2 < ending.toList.length := by
    rcases List.mem_pair.1 h with rfl | rfl <;> decide
  have hne : ∀ word : String, word.toList.length ≤ 2 → stem path ++ ending ≠ word := by
    rintro word hword rfl
    rw [String.toList_append, List.length_append] at hword
    omega
  refine ⟨?_, hne "" (by decide), hne "." (by decide), hne ".." (by decide)⟩
  rw [String.toList_append, List.mem_append]
  exact not_or.2 ⟨slash_not_mem_stem path, hending.1⟩

/-- Results that are called alike are of the same kind, and so are their scripts. -/
theorem stem_of_output_eq {path path' ending ending' : String} (h : ending ∈ [".bin", ".json"])
    (h' : ending' ∈ [".bin", ".json"]) (heq : stem path ++ ending = stem path' ++ ending') :
    stem path = stem path' ∧ ending = ending' := by
  have hsame : ending = ending' := by
    have hchars := congrArg (fun name : String => name.toList.reverse) heq
    simp only [String.toList_append, List.reverse_append] at hchars
    -- The two endings differ in the character before the last.
    rcases List.mem_pair.1 h with rfl | rfl <;> rcases List.mem_pair.1 h' with rfl | rfl
    · rfl
    · exact absurd (congrArg (·[1]?) hchars) (by simp)
    · exact absurd (congrArg (·[1]?) hchars) (by simp)
    · rfl
  subst hsame
  exact ⟨String.append_left_inj ending |>.1 heq, rfl⟩

/-- What becomes of the files when scripts are finished one after the other. -/
structure Written (context : Context) (out : String) (scripts : List ScriptFile)
    (before after : Files) : Prop where
  /-- What is called otherwise stays. -/
  other : ∀ name, Path.IsName name →
    (∀ script ∈ scripts, ∀ ending ∈ [".bin", ".json"], name ≠ stem script.name ++ ending) →
    after.read? (Path.join out name) = before.read? (Path.join out name)
  /-- The results of a script are there, unless a later script is called alike. -/
  last : ∀ earlier script later, scripts = earlier ++ script :: later →
    ∃ assembly, Gml.compile script.text context = .ok assembly ∧
      ((∀ other ∈ later, stem other.name ≠ stem script.name) →
        after.read? (outputPath out script.name ".bin") = some ⟨assembly.bytes.toArray⟩ ∧
        after.read? (outputPath out script.name ".json") = some assembly.tableText.toUTF8)

/-- Nothing is written. -/
theorem written_nil (files : Files) : Written context out [] files files where
  other _ _ _ := rfl
  last earlier script later h := by simp at h

/-- Two files are written for each script. -/
theorem Written.cons {script : ScriptFile} {scripts : List ScriptFile}
    {before between next after : Files} {assembly : Assembly}
    (hcompile : Gml.compile script.text context = .ok assembly)
    (hbinary : before.write? (outputPath out script.name ".bin") ⟨assembly.bytes.toArray⟩ =
      some between)
    (htables : between.write? (outputPath out script.name ".json") assembly.tableText.toUTF8 =
      some next)
    (h : Written context out scripts next after) :
    Written context out (script :: scripts) before after where
  other name hname hne := by
    have hfirst := hne script List.mem_cons_self
    rw [h.other name hname fun other hother => hne other (List.mem_cons_of_mem _ hother),
      Files.read?_of_write?_other htables (isName_output _ (by simp)) hname
        (hfirst ".json" (by simp)),
      Files.read?_of_write?_other hbinary (isName_output _ (by simp)) hname
        (hfirst ".bin" (by simp))]
  last earlier found later hsplit := by
    cases earlier with
    | cons first earlier =>
      obtain ⟨-, hrest⟩ := List.cons.inj hsplit
      exact h.last earlier found later hrest
    | nil =>
      obtain ⟨rfl, rfl⟩ := List.cons.inj hsplit
      refine ⟨assembly, hcompile, fun hlater => ?_⟩
      -- No later script is called alike, so nothing is written there again.
      have hkeeps : ∀ ending ∈ [".bin", ".json"],
          after.read? (outputPath out script.name ending) =
            next.read? (outputPath out script.name ending) := by
        intro ending hending
        refine h.other _ (isName_output _ hending) fun other hother ending' hending' heq => ?_
        exact hlater other hother (stem_of_output_eq hending hending' heq).1.symm
      refine ⟨?_, ?_⟩
      · rw [hkeeps ".bin" (by simp)]
        refine (Files.read?_of_write?_other htables (isName_output _ (by simp))
          (isName_output _ (by simp)) fun heq => ?_).trans (Files.read?_of_write? hbinary)
        exact absurd (stem_of_output_eq (by simp) (by simp) heq).2 (by decide)
      · rw [hkeeps ".json" (by simp)]
        exact Files.read?_of_write? htables

/-! ### Steps of the command -/

/-- Files that were read. -/
theorem ends_readFiles {paths : List String} {files : List ScriptFile}
    (h : Ends (readFiles paths) session files session') :
    session' = session ∧ paths = files.map ScriptFile.name ∧
      ∀ file ∈ files, ∃ bytes, session.files.read? file.name = some bytes ∧
        String.fromUTF8? bytes = some file.text := by
  induction paths generalizing files session with
  | nil =>
    obtain ⟨rfl, rfl⟩ := ends_pure.1 h
    exact ⟨rfl, rfl, nofun⟩
  | cons path paths ih =>
    unfold readFiles at h
    rw [List.mapM_cons] at h
    obtain ⟨file, between, hfile, hmore⟩ := ends_bind.1 h
    obtain ⟨rest, last, hrest, hlast⟩ := ends_bind.1 hmore
    obtain ⟨rfl, rfl⟩ := ends_pure.1 hlast
    obtain ⟨found, start, hfound, hchecked⟩ := ends_bind.1 hfile
    obtain rfl : start = session := by
      cases ends_lift hfound
      rfl
    cases found with
    | false => cases hchecked
    | true =>
      obtain ⟨text, after, htext, hnamed⟩ := ends_bind.1 hchecked
      obtain ⟨rfl, rfl⟩ := ends_pure.1 hnamed
      obtain ⟨rfl, bytes, hbytes, hutf⟩ := ends_readText htext
      obtain ⟨rfl, rfl, hall⟩ := ih hrest
      exact ⟨rfl, rfl, List.forall_mem_cons.2 ⟨⟨bytes, hbytes, hutf⟩, hall⟩⟩

variable {file : ScriptFile}

/-- A result that was written. -/
theorem ends_writeResult {assembly : Assembly} {u : Unit}
    (h : Ends (writeResult file out assembly) session u session') :
    ∃ between, session.files.write? (outputPath out file.name ".bin") ⟨assembly.bytes.toArray⟩ =
        some between ∧
      between.write? (outputPath out file.name ".json") assembly.tableText.toUTF8 =
        some session'.files := by
  obtain ⟨_, first, hbinary, hmore⟩ := ends_bind.1 h
  obtain ⟨_, second, htables, hprint⟩ := ends_bind.1 hmore
  rw [files_of_printLine hprint]
  exact ⟨first.files, ends_change hbinary, ends_change htables⟩

/-- A script that was assembled. -/
theorem ends_assembleFile {code : Code} {result : Except Diagnostic Assembly}
    (h : Ends (assembleFile file context listing code) session result session') :
    code.assemble context.encoding = result ∧ session'.files = session.files := by
  cases listing with
  | false =>
    obtain ⟨hresult, rfl⟩ := ends_pure.1 h
    exact ⟨hresult, rfl⟩
  | true =>
    obtain ⟨_, between, hprint, hlast⟩ := ends_bind.1 h
    obtain ⟨hresult, rfl⟩ := ends_pure.1 hlast
    exact ⟨hresult, files_of_printLine hprint⟩

/-- A script that did not fail has its bytes, and they were written. -/
theorem ends_finishFile {code : Except Diagnostic Code}
    (h : Ends (finishFile context out listing file code) session false session') :
    ∃ assembly between, (code >>= fun found => found.assemble context.encoding) = .ok assembly ∧
      session.files.write? (outputPath out file.name ".bin") ⟨assembly.bytes.toArray⟩ =
        some between ∧
      between.write? (outputPath out file.name ".json") assembly.tableText.toUTF8 =
        some session'.files := by
  cases code with
  | error diagnostic =>
    obtain ⟨_, _, hresult, hend⟩ := ends_bind.1 h
    obtain ⟨rfl, rfl⟩ := ends_pure.1 hresult
    obtain ⟨_, _, -, hlast⟩ := ends_bind.1 hend
    cases (ends_pure.1 hlast).1
  | ok found =>
    obtain ⟨result, between, hresult, hend⟩ := ends_bind.1 h
    obtain ⟨hassemble, hfiles⟩ := ends_assembleFile hresult
    cases result with
    | error diagnostic =>
      obtain ⟨_, _, -, hlast⟩ := ends_bind.1 hend
      cases (ends_pure.1 hlast).1
    | ok assembly =>
      obtain ⟨_, last, hwrite, hlast⟩ := ends_bind.1 hend
      obtain ⟨-, rfl⟩ := ends_pure.1 hlast
      obtain ⟨files, hbinary, htables⟩ := ends_writeResult hwrite
      exact ⟨assembly, files, hassemble, hfiles ▸ hbinary, htables⟩

/-- What is kept on the way is kept to the end. -/
theorem length_le_of_filterAuxM {step : α → Run (StateM Session) Bool} {l kept all : List α}
    (h : Ends (List.filterAuxM step l kept) session all session') : kept.length ≤ all.length := by
  induction l generalizing kept session with
  | nil =>
    obtain ⟨rfl, -⟩ := ends_pure.1 h
    exact Nat.le_refl _
  | cons a l ih =>
    obtain ⟨failed, between, -, hrest⟩ := ends_bind.1 h
    refine Nat.le_trans ?_ (ih hrest)
    cases failed <;> simp

/-- All scripts that were finished. -/
theorem written_of_filterAuxM {step : ScriptFile × Except Diagnostic Code → Run (StateM Session) Bool}
    (hstep : ∀ file code, step (file, code) = finishFile context out listing file code)
    {files : List ScriptFile} {kept all : List (ScriptFile × Except Diagnostic Code)}
    (h : Ends (List.filterAuxM step
      (files.map fun file => (file, compileToCode file.text context)) kept) session all session')
    (hnone : all.length = kept.length) :
    Written context out files session.files session'.files := by
  induction files generalizing session kept with
  | nil =>
    obtain ⟨-, rfl⟩ := ends_pure.1 h
    exact written_nil _
  | cons file files ih =>
    obtain ⟨failed, between, hfinish, hrest⟩ := ends_bind.1 h
    cases failed with
    | true =>
      have hle := length_le_of_filterAuxM hrest
      simp at hle
      omega
    | false =>
      rw [hstep] at hfinish
      obtain ⟨assembly, _, hcompile, hbinary, htables⟩ := ends_finishFile hfinish
      exact (ih hrest hnone).cons hcompile hbinary htables

/-- If all scripts count as compiled then each of them was read and can be compiled. Its results are
in the folder for results if none of the scripts after it is called alike. -/
theorem outputs_of_compileFiles {paths : List String}
    (h : Ends (compileFiles paths context out listing) session 0 session') :
    ∀ earlier path later, paths = earlier ++ path :: later →
      ∃ bytes text assembly, session.files.read? path = some bytes ∧
        String.fromUTF8? bytes = some text ∧ Gml.compile text context = .ok assembly ∧
        ((∀ other ∈ later, stem other ≠ stem path) →
          session'.files.read? (outputPath out path ".bin") = some ⟨assembly.bytes.toArray⟩ ∧
          session'.files.read? (outputPath out path ".json") = some assembly.tableText.toUTF8) := by
  intro earlier path later hpaths
  obtain ⟨files, start, hread, hcompile⟩ := ends_bind.1 h
  obtain ⟨rfl, rfl, hfiles⟩ := ends_readFiles hread
  obtain ⟨_, ready, hfolders, hfinish⟩ := ends_bind.1 hcompile
  obtain ⟨failed, last, hfilter, hcount⟩ := ends_bind.1 hfinish
  obtain ⟨hfailed, rfl⟩ := ends_pure.1 hcount
  obtain ⟨all, _, hall, hreverse⟩ := ends_bind.1 hfilter
  obtain ⟨rfl, rfl⟩ := ends_pure.1 hreverse
  have hcodes : files.zip (Batch.toCode files context) =
      files.map fun file => (file, compileToCode file.text context) := by
    have hzip := List.zip_map' (l := files) (f := id)
      (g := fun file => compileToCode file.text context)
    rw [List.map_id] at hzip
    rw [Batch.toCode, Batch.run_eq]
    exact hzip
  rw [hcodes] at hall
  have hwritten := written_of_filterAuxM (fun _ _ => rfl) hall (by simpa using hfailed)
  obtain ⟨before, rest, rfl, hbefore, hrest⟩ := List.map_eq_append_iff.1 hpaths
  obtain ⟨file, after, rfl, rfl, rfl⟩ := List.map_eq_cons_iff.1 hrest
  obtain ⟨bytes, hbytes, htext⟩ := hfiles file (by simp)
  obtain ⟨assembly, hassembly, hlast⟩ := hwritten.last before file after rfl
  refine ⟨bytes, file.text, assembly, hbytes, htext, hassembly, fun hlater => hlast ?_⟩
  exact fun other hother => hlater other.name (List.mem_map_of_mem hother)

/-- A session with two scripts in folders of their own. -/
def pairSession (first second : String) : Session where
  files := {
    working := ["work"]
    folders := [["work", "a"], ["work", "b"]]
    contents := .ofList
      [(["work", "a", first], "return 1;".toUTF8), (["work", "b", second], "return 2;".toUTF8)] }

/-- Of scripts that are called differently the first one keeps its results, too. They are outside of
the working folder here. -/
theorem outputs_of_compileFiles_pair :
    let session := pairSession "x.gml" "y.gml"
    ∃ session' bytes text assembly,
      Ends (compileFiles ["a/x.gml", "../work/b/y.gml"] {} "/out" false) session 0 session' ∧
      session.files.read? "a/x.gml" = some bytes ∧ String.fromUTF8? bytes = some text ∧
      Gml.compile text {} = .ok assembly ∧
      session'.files.read? "/out/x.bin" = some ⟨assembly.bytes.toArray⟩ ∧
      session'.files.read? "/out/x.json" = some assembly.tableText.toUTF8 := by
  intro session
  have hends : Ends (compileFiles ["a/x.gml", "../work/b/y.gml"] {} "/out" false) session 0 _ :=
    ends_of_toOption (by decide +kernel)
  obtain ⟨bytes, text, assembly, hbytes, htext, hassembly, hlast⟩ :=
    outputs_of_compileFiles hends [] "a/x.gml" ["../work/b/y.gml"] rfl
  have hread := hlast (List.forall_mem_singleton.2 (by decide +kernel))
  rw [show outputPath "/out" "a/x.gml" ".bin" = "/out/x.bin" by decide +kernel,
    show outputPath "/out" "a/x.gml" ".json" = "/out/x.json" by decide +kernel] at hread
  exact ⟨_, bytes, text, assembly, hends, hbytes, htext, hassembly, hread⟩

/-- Scripts that are called alike count as compiled, but the bytes of the first one are lost. -/
theorem first_output_lost :
    ∃ session' first second, Ends (compileFiles ["a/x.gml", "b/x.gml"] {} "out" false)
        (pairSession "x.gml" "x.gml") 0 session' ∧
      Gml.compile "return 1;" {} = .ok first ∧ Gml.compile "return 2;" {} = .ok second ∧
      session'.files.read? "out/x.bin" = some ⟨second.bytes.toArray⟩ ∧
      first.bytes ≠ second.bytes := by
  have hends : Ends (compileFiles ["a/x.gml", "b/x.gml"] {} "out" false)
      (pairSession "x.gml" "x.gml") 0 _ := ends_of_toOption (by decide +kernel)
  obtain ⟨first, hfirst, hbytes⟩ := exists_ok_of_any (x := Gml.compile "return 1;" {})
    (p := fun assembly => assembly.bytes = [1, 1, 0, 0, 0, 99, 100]) (by decide +kernel)
  obtain ⟨second, hsecond, hbytes'⟩ := exists_ok_of_any (x := Gml.compile "return 2;" {})
    (p := fun assembly => assembly.bytes = [1, 2, 0, 0, 0, 99, 100]) (by decide +kernel)
  refine ⟨_, first, second, hends, hfirst, hsecond, ?_, ?_⟩
  · rw [of_decide_eq_true hbytes']
    decide +kernel
  · rw [of_decide_eq_true hbytes, of_decide_eq_true hbytes']
    decide

end Command

end Gml
