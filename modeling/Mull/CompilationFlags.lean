import Mull.CompilationDatabase
import Mull.Lib.LexicalPath

/-!
# The flags of a file

The entries of a compilation database are kept under the paths of their files, a relative
file in its directory.  A file is looked up under its path as it is spelled, under its bare
name and under its path without dots.

`-c` is left out of the flags with the token behind it.  So a flag that stands there is lost
(`no_flag_lost_iff`).  And the dots are taken out of the path that is looked up, but not out
of the paths of the entries, so that an entry whose own path has dots is only found by its
own spelling (`lookup_finds_iff`).
-/

namespace Mull.CompilationDatabase

/-! ### The database -/

/-- What is used of `llvm::sys::path`. -/
structure PathFunctions where
  separator : Text
  isAbsolute : Text → Bool
  filename : Text → Text
  removeDots : Text → Text
  removeDots_removeDots : ∀ path, removeDots (removeDots path) = removeDots path

/-- `std::map<std::string, std::vector<std::string>>`. -/
abbrev FlagsMap := List (Text × List Text)

/-- `map[key] = flags`. -/
def FlagsMap.assign (map : FlagsMap) (key : Text) (flags : List Text) : FlagsMap :=
  (key, flags) :: map.filter fun entry => entry.1 ≠ key

/-- The path of an entry: a relative file lies in the directory. -/
def filePath (paths : PathFunctions) (directory file : Text) : Text :=
  if !file.isEmpty && !paths.isAbsolute file then directory ++ paths.separator ++ file else file

def CompileCommand.filePath (paths : PathFunctions) (command : CompileCommand) : Text :=
  CompilationDatabase.filePath paths command.directory command.file

/-- `loadDatabaseFromFile`, with the commands that could be read. -/
def loadDatabaseFromFile (paths : PathFunctions) (commands : List CompileCommand)
    (extraFlags : List Text) : FlagsMap :=
  commands.foldl (fun database command =>
    FlagsMap.assign database (command.filePath paths) (flagsFromCommand command extraFlags)) []

/-- `createBitcodeFlags`, with the flags of the files as the bitcode has them. -/
def createBitcodeFlags (bitcodeFlags : List (Text × Text)) (extraFlags : List Text) : FlagsMap :=
  bitcodeFlags.foldl (fun merged (file, flags) =>
    FlagsMap.assign merged file
      ((filterFlags (flagsFromString flags) true).filter (· ≠ file) ++ extraFlags)) []

structure Database where
  extraFlags : List Text
  database : FlagsMap
  bitcodeFlags : FlagsMap
deriving DecidableEq, Repr

/-- The constructor of `CompilationDatabase`. -/
def Database.create (paths : PathFunctions) (commands : List CompileCommand) (flags : Text)
    (bitcodeFlags : List (Text × Text)) : Database :=
  let extraFlags := filterFlags (flagsFromString flags) false
  ⟨extraFlags, loadDatabaseFromFile paths commands extraFlags,
    createBitcodeFlags bitcodeFlags extraFlags⟩

def Database.compilationFlagsForFile (paths : PathFunctions) (d : Database) (filepath : Text) :
    List Text :=
  if d.database.isEmpty && d.bitcodeFlags.isEmpty then d.extraFlags
  else
    let dotlessPath := paths.removeDots filepath
    ((d.bitcodeFlags.lookup filepath).or <|
      (d.bitcodeFlags.lookup (paths.filename filepath)).or <|
      (d.bitcodeFlags.lookup dotlessPath).or <|
      (d.database.lookup filepath).or <|
      (d.database.lookup (paths.filename filepath)).or <|
      d.database.lookup (paths.removeDots dotlessPath)).getD d.extraFlags

/-- The functions for absolute paths on a POSIX system. -/
def posixPaths : PathFunctions where
  separator := ['/']
  isAbsolute path := path.head? = some '/'
  filename := LexicalPath.filename
  removeDots := LexicalPath.removeDots
  removeDots_removeDots := LexicalPath.removeDots_removeDots

/-! ### What is stored -/

theorem lookup_filter_ne (map : FlagsMap) {key key' : Text} (h : key' ≠ key) :
    (map.filter fun entry => entry.1 ≠ key).lookup key' = map.lookup key' := by
  induction map with
  | nil => rfl
  | cons entry map ih =>
      by_cases hentry : entry.1 = key
      · rw [List.filter_cons_of_neg (by simpa using hentry), ih, List.lookup_cons,
          beq_false_of_ne (hentry ▸ h)]
      · rw [List.filter_cons_of_pos (by simpa using hentry), List.lookup_cons, List.lookup_cons, ih]

theorem lookup_assign (map : FlagsMap) (key key' : Text) (flags : List Text) :
    (map.assign key flags).lookup key' = if key' = key then some flags else map.lookup key' := by
  unfold FlagsMap.assign
  by_cases hkey : key' = key
  · subst hkey
    simp
  · rw [List.lookup_cons, beq_false_of_ne hkey, if_neg hkey]
    exact lookup_filter_ne map hkey

section Stored

variable (paths : PathFunctions)

/-- A path leads to the last command that is stored under it. -/
theorem lookup_loadDatabaseFromFile (commands : List CompileCommand) (extraFlags : List Text)
    (path : Text) :
    (loadDatabaseFromFile paths commands extraFlags).lookup path =
      (commands.reverse.find? fun command => command.filePath paths = path).map fun command =>
        flagsFromCommand command extraFlags := by
  unfold loadDatabaseFromFile
  rw [← List.foldr_reverse]
  induction commands.reverse with
  | nil => rfl
  | cons command commands ih =>
      rw [List.foldr_cons, lookup_assign, List.find?_cons, ih]
      by_cases hpath : command.filePath paths = path
      · simp [hpath]
      · simp [hpath, Ne.symm hpath]

theorem isEmpty_loadDatabaseFromFile {commands : List CompileCommand} (hne : commands ≠ [])
    (extraFlags : List Text) :
    (loadDatabaseFromFile paths commands extraFlags).isEmpty = false := by
  unfold loadDatabaseFromFile
  rw [← List.foldr_reverse]
  cases hreverse : commands.reverse with
  | nil => exact absurd (List.reverse_eq_nil_iff.mp hreverse) hne
  | cons command commands => rfl

/-- The last command that is stored under the path. -/
def commandAt (commands : List CompileCommand) (path : Text) : Option CompileCommand :=
  commands.reverse.find? fun command => command.filePath paths = path

/-- The command that a path leads to: stored under it, under the bare name, or under the path
    without dots. -/
def commandFor (commands : List CompileCommand) (query : Text) : Option CompileCommand :=
  (commandAt paths commands query).or <| (commandAt paths commands (paths.filename query)).or <|
    commandAt paths commands (paths.removeDots query)

theorem compilationFlagsForFile_eq {commands : List CompileCommand} (hne : commands ≠ [])
    (flags query : Text) :
    (Database.create paths commands flags []).compilationFlagsForFile paths query =
      ((commandFor paths commands query).map fun command =>
        flagsFromCommand command (Database.create paths commands flags []).extraFlags).getD
          (Database.create paths commands flags []).extraFlags := by
  unfold Database.compilationFlagsForFile Database.create commandFor commandAt
  simp only [isEmpty_loadDatabaseFromFile paths hne, createBitcodeFlags, List.foldl_nil,
    List.lookup_nil, Option.none_or, lookup_loadDatabaseFromFile, paths.removeDots_removeDots,
    Option.map_or, Bool.false_and, Bool.false_eq_true, if_false]

end Stored

/-! ### Which flags are lost -/

/-- The tokens that are flags: neither `-c` nor the file. -/
def flagTokens (file : Text) (arguments : List Text) : List Text :=
  arguments.filter fun token => token ≠ ['-', 'c'] ∧ token ≠ file

/-- All flags of the command come, un-escaped and in their order, before the extra flags. -/
def NoFlagLost (file : Text) (arguments : List Text) (d : Database) (returned : List Text) : Prop :=
  ∃ own, returned = own ++ d.extraFlags ∧
    ((flagTokens file arguments).map undoEscapingString).Sublist own

/-- Behind an odd number of `-c` comes no other token than the file; `odd` tells whether the
    arguments stand there. -/
def OnlyFileBehindCompile (file : Text) : Bool → List Text → Prop
  | _, [] => True
  | odd, token :: tokens =>
      if token = ['-', 'c'] then OnlyFileBehindCompile file (!odd) tokens
      else (odd = true → token = file) ∧ OnlyFileBehindCompile file false tokens

instance (file : Text) : (odd : Bool) → (arguments : List Text) →
    Decidable (OnlyFileBehindCompile file odd arguments)
  | _, [] => .isTrue trivial
  | odd, token :: tokens =>
      let _ := instDecidableOnlyFileBehindCompile file (!odd) tokens
      let _ := instDecidableOnlyFileBehindCompile file false tokens
      inferInstanceAs (Decidable (if token = ['-', 'c'] then _ else _))

theorem flagTokens_cons_of_flag {file token : Text} (hc : token ≠ ['-', 'c']) (hfile : token ≠ file)
    (tokens : List Text) : flagTokens file (token :: tokens) = token :: flagTokens file tokens := by
  rw [flagTokens, List.filter_cons_of_pos (by simp [hc, hfile])]
  rfl

theorem flagTokens_cons_of_not {file token : Text} (h : token = ['-', 'c'] ∨ token = file)
    (tokens : List Text) : flagTokens file (token :: tokens) = flagTokens file tokens := by
  have hnot : ¬ (token ≠ ['-', 'c'] ∧ token ≠ file) := fun hboth => h.elim hboth.1 hboth.2
  rw [flagTokens, List.filter_cons_of_neg (by simpa using hnot)]
  rfl

/-- No token becomes a flag that is none. -/
theorem filter_dropCompileFlags_sublist (file : Text) (arguments : List Text) :
    ((dropCompileFlags arguments).filter (· ≠ file)).Sublist (flagTokens file arguments) := by
  fun_induction dropCompileFlags arguments with
  | case1 => exact List.Sublist.refl _
  | case2 => exact List.nil_sublist _
  | case3 next tokens ih =>
      rw [flagTokens_cons_of_not (.inl rfl)]
      refine ih.trans ?_
      exact (List.sublist_cons_self next tokens).filter _
  | case4 token tokens hc ih =>
      by_cases hfile : token = file
      · rw [List.filter_cons_of_neg (by simpa using hfile), flagTokens_cons_of_not (.inr hfile)]
        exact ih
      · rw [List.filter_cons_of_pos (by simpa using hfile), flagTokens_cons_of_flag hc hfile]
        exact ih.cons_cons token

theorem filter_dropCompileFlags_eq_iff (file : Text) (arguments : List Text) :
    (dropCompileFlags arguments).filter (· ≠ file) = flagTokens file arguments ↔
      OnlyFileBehindCompile file false arguments := by
  fun_induction dropCompileFlags arguments with
  | case1 => simp [flagTokens, OnlyFileBehindCompile]
  | case2 => simp [flagTokens, OnlyFileBehindCompile]
  | case3 next tokens ih =>
      rw [flagTokens_cons_of_not (.inl rfl), OnlyFileBehindCompile, if_pos rfl, Bool.not_false,
        OnlyFileBehindCompile]
      by_cases hc : next = ['-', 'c']
      · rw [if_pos hc, flagTokens_cons_of_not (.inl hc), Bool.not_true]
        exact ih
      · rw [if_neg hc]
        by_cases hfile : next = file
        · rw [flagTokens_cons_of_not (.inr hfile), ih]
          simp [hfile]
        · -- the flag behind `-c` is gone
          rw [flagTokens_cons_of_flag hc hfile]
          have hle := (filter_dropCompileFlags_sublist file tokens).length_le
          constructor
          · intro heq
            rw [heq, List.length_cons] at hle
            omega
          · rintro ⟨hodd, -⟩
            exact absurd (hodd rfl) hfile
  | case4 token tokens hc ih =>
      rw [OnlyFileBehindCompile, if_neg hc, ← ih]
      by_cases hfile : token = file
      · rw [List.filter_cons_of_neg (by simpa using hfile), flagTokens_cons_of_not (.inr hfile)]
        simp
      · rw [List.filter_cons_of_pos (by simpa using hfile), flagTokens_cons_of_flag hc hfile]
        simp

/-- **No flag of a command is lost if and only if no flag but the file stands behind an odd
    number of `-c`.** -/
theorem no_flag_lost_iff (paths : PathFunctions) {before after : List CompileCommand}
    {command : CompileCommand} {compiler : Text} {arguments : List Text}
    (harguments : command.arguments = compiler :: arguments)
    (hstored : ∀ other ∈ after, other.filePath paths ≠ command.filePath paths) (flags : Text) :
    NoFlagLost command.file arguments (Database.create paths (before ++ command :: after) flags [])
        ((Database.create paths (before ++ command :: after) flags []).compilationFlagsForFile paths
          (command.filePath paths)) ↔
      OnlyFileBehindCompile command.file false arguments := by
  have hfind : commandAt paths (before ++ command :: after) (command.filePath paths) =
      some command := by
    rw [commandAt, List.reverse_append, List.reverse_cons, List.append_assoc, List.find?_append,
      List.find?_eq_none.mpr (by simpa using hstored)]
    simp
  have hreturned : (Database.create paths (before ++ command :: after) flags []).compilationFlagsForFile
      paths (command.filePath paths) =
      ((dropCompileFlags arguments).filter (· ≠ command.file)).map undoEscapingString ++
        (Database.create paths (before ++ command :: after) flags []).extraFlags := by
    rw [compilationFlagsForFile_eq paths (by simp), commandFor, hfind]
    simp only [Option.some_or, Option.map_some, Option.getD_some, flagsFromCommand, harguments,
      List.isEmpty_cons, Bool.false_eq_true, if_false]
    rfl
  rw [← filter_dropCompileFlags_eq_iff, hreturned]
  constructor
  · rintro ⟨own, hown, hsublist⟩
    rw [← List.append_cancel_right hown] at hsublist
    have hle := hsublist.length_le
    rw [List.length_map, List.length_map] at hle
    exact (filter_dropCompileFlags_sublist command.file arguments).eq_of_length_le hle
  · intro heq
    exact ⟨_, rfl, by rw [heq]⟩

/-- A command with the file behind `-c`. -/
def fileBehindCompile : CompileCommand :=
  entryWithArguments "/p".toList "a.cpp".toList
    ["clang++".toList, "-c".toList, "a.cpp".toList, "-O2".toList]

/-- A command with a flag behind `-c`. -/
def defineBehindCompile : CompileCommand :=
  entryWithArguments "/p".toList "a.cpp".toList
    ["clang++".toList, "-c".toList, "-DNDEBUG".toList, "a.cpp".toList]

theorem no_flag_lost_fileBehindCompile :
    NoFlagLost fileBehindCompile.file fileBehindCompile.arguments.tail
      (Database.create posixPaths [fileBehindCompile] [] [])
      ((Database.create posixPaths [fileBehindCompile] [] []).compilationFlagsForFile posixPaths
        (fileBehindCompile.filePath posixPaths)) :=
  (@no_flag_lost_iff posixPaths [] [] fileBehindCompile "clang++".toList
    fileBehindCompile.arguments.tail rfl (by simp) []).mpr (by decide +kernel)

/-- The definition is lost. -/
theorem not_no_flag_lost_defineBehindCompile :
    (Database.create posixPaths [defineBehindCompile] [] []).compilationFlagsForFile posixPaths
      (defineBehindCompile.filePath posixPaths) = [] ∧
    ¬ NoFlagLost defineBehindCompile.file defineBehindCompile.arguments.tail
      (Database.create posixPaths [defineBehindCompile] [] []) [] := by
  refine ⟨by decide +kernel, ?_⟩
  rintro ⟨own, hown, hsublist⟩
  obtain rfl : own = [] := (List.append_eq_nil_iff.mp hown.symm).1
  have hflags : flagTokens defineBehindCompile.file defineBehindCompile.arguments.tail =
      ["-DNDEBUG".toList] := by decide +kernel
  rw [hflags] at hsublist
  cases hsublist

/-! ### Which entries are found -/

def CompileCommand.place (command : CompileCommand) : Text × Text :=
  (command.directory, command.file)

/-- Whatever the commands at these places are, the path leads to the flags of entry `i`. -/
def FindsEntry (paths : PathFunctions) (places : List (Text × Text)) (i : Nat) (query : Text) :
    Prop :=
  ∀ commands flags, commands.map CompileCommand.place = places →
    ∀ command, commands[i]? = some command →
      (Database.create paths commands flags []).compilationFlagsForFile paths query =
        flagsFromCommand command (Database.create paths commands flags []).extraFlags

/-- The entry is stored under the path as it is spelled, under its bare name, or under the path
    without dots, if that is not hidden by an entry under the bare name. -/
def StoredFor (paths : PathFunctions) (places : List (Text × Text)) (path query : Text) : Prop :=
  path = query ∨ path = paths.filename query ∨
    (path = paths.removeDots query ∧
      ∀ other ∈ places, filePath paths other.1 other.2 ≠ paths.filename query)

section Lookup

variable {paths : PathFunctions} {places : List (Text × Text)} {i : Nat} {place : Text × Text}
  {query : Text} {commands : List CompileCommand}

theorem filePath_of_commandAt {path : Text} {command : CompileCommand}
    (h : commandAt paths commands path = some command) : command.filePath paths = path := by
  simpa using List.find?_some h

/-- Only entry `i` is found under a path that is the same but for its dots. -/
theorem getElem?_of_commandAt
    (honly : ∀ (j : Nat) other, places[j]? = some other →
      paths.removeDots (filePath paths other.1 other.2) = paths.removeDots query → j = i)
    (hplaces : commands.map CompileCommand.place = places) {path : Text} {command : CompileCommand}
    (hfind : commandAt paths commands path = some command)
    (hpath : paths.removeDots path = paths.removeDots query) : commands[i]? = some command := by
  rcases List.getElem?_of_mem (List.mem_reverse.mp (List.mem_of_find?_eq_some hfind)) with ⟨j, hj⟩
  have hplace : places[j]? = some command.place := by rw [← hplaces, List.getElem?_map, hj]; rfl
  obtain rfl : j = i :=
    honly j _ hplace (by rw [← hpath, ← filePath_of_commandAt hfind]; rfl)
  exact hj

/-- The entry itself is found under its path. -/
theorem commandAt_filePath
    (honly : ∀ (j : Nat) other, places[j]? = some other →
      paths.removeDots (filePath paths other.1 other.2) = paths.removeDots query → j = i)
    (hplaces : commands.map CompileCommand.place = places) {command : CompileCommand}
    (hcommand : commands[i]? = some command)
    (hsame : paths.removeDots (command.filePath paths) = paths.removeDots query) :
    commandAt paths commands (command.filePath paths) = some command := by
  cases hfind : commandAt paths commands (command.filePath paths) with
  | none =>
      have hnone := List.find?_eq_none.mp hfind command
        (List.mem_reverse.mpr (List.mem_of_getElem? hcommand))
      simp at hnone
  | some found => rw [← hcommand, getElem?_of_commandAt honly hplaces hfind hsame]

/-- Commands of which only the one at place `i` has a flag. -/
def markedCommands (places : List (Text × Text)) (i : Nat) : List CompileCommand :=
  places.mapIdx fun j place =>
    entryWithArguments place.1 place.2 (if j = i then [[], 'x' :: 'x' :: place.2] else [])

theorem place_markedCommands (places : List (Text × Text)) (i : Nat) :
    (markedCommands places i).map CompileCommand.place = places := by
  apply List.ext_getElem?
  intro j
  rw [markedCommands, List.getElem?_map, List.getElem?_mapIdx, Option.map_map]
  exact Option.map_id'

theorem flagsFromCommand_marked (place : Text × Text) :
    flagsFromCommand (entryWithArguments place.1 place.2 [[], 'x' :: 'x' :: place.2]) [] ≠ [] := by
  rw [flagsFromCommand_entryWithArguments, filterFlags, if_pos rfl, List.tail_cons,
    dropCompileFlags_cons (by simp), List.filter_cons_of_pos]
  · simp
  · rw [decide_eq_true_eq]
    intro heq
    have hlength := congrArg List.length heq
    simp only [List.length_cons] at hlength
    omega

/-- What is found under another path has no flags. -/
theorem flagsFromCommand_of_ne (hplace : places[i]? = some place) {path : Text}
    (hne : filePath paths place.1 place.2 ≠ path) {command : CompileCommand}
    (hfind : commandAt paths (markedCommands places i) path = some command) :
    flagsFromCommand command [] = [] := by
  have hcommand := filePath_of_commandAt hfind
  rcases List.getElem?_of_mem (List.mem_reverse.mp (List.mem_of_find?_eq_some hfind)) with ⟨j, hj⟩
  rw [markedCommands, List.getElem?_mapIdx] at hj
  rcases Option.map_eq_some_iff.mp hj with ⟨other, hother, rfl⟩
  by_cases hji : j = i
  · subst hji
    rw [hplace] at hother
    obtain rfl := Option.some.inj hother
    exact absurd hcommand hne
  · rw [if_neg hji]
    rfl

/-- If nothing is stored for the path, it leads to no flags. -/
theorem flagsFromCommand_of_not_storedFor (hplace : places[i]? = some place)
    (hnot : ¬ StoredFor paths places (filePath paths place.1 place.2) query)
    {command : CompileCommand}
    (hfind : commandFor paths (markedCommands places i) query = some command) :
    flagsFromCommand command [] = [] := by
  unfold StoredFor at hnot
  rw [not_or, not_or, not_and] at hnot
  rcases hnot with ⟨hraw, hname, hdotless⟩
  rcases Option.or_eq_some_iff.mp hfind with hfind | ⟨-, hfind⟩
  · exact flagsFromCommand_of_ne hplace hraw hfind
  rcases Option.or_eq_some_iff.mp hfind with hfind | ⟨hhidden, hfind⟩
  · exact flagsFromCommand_of_ne hplace hname hfind
  · refine flagsFromCommand_of_ne hplace (fun heq => hdotless heq fun other hother heq' => ?_) hfind
    rw [← place_markedCommands places i] at hother
    rcases List.mem_map.mp hother with ⟨command, hcommand, rfl⟩
    exact List.find?_eq_none.mp hhidden command (List.mem_reverse.mpr hcommand) (decide_eq_true heq')

/-- **A path leads to the flags of the only entry with the same path but for dots if and only
    if the entry is stored for it.** -/
theorem lookup_finds_iff (hplace : places[i]? = some place)
    (hsame : paths.removeDots (filePath paths place.1 place.2) = paths.removeDots query)
    (honly : ∀ (j : Nat) other, places[j]? = some other →
      paths.removeDots (filePath paths other.1 other.2) = paths.removeDots query → j = i) :
    FindsEntry paths places i query ↔
      StoredFor paths places (filePath paths place.1 place.2) query := by
  constructor
  · intro hfinds
    by_contra hnot
    have hmarked : (markedCommands places i)[i]? = some (entryWithArguments place.1 place.2
        [[], 'x' :: 'x' :: place.2]) := by
      rw [markedCommands, List.getElem?_mapIdx, hplace, Option.map_some, if_pos rfl]
    have hflags := hfinds (markedCommands places i) [] (place_markedCommands places i) _ hmarked
    have hextra : (Database.create paths (markedCommands places i) [] []).extraFlags = [] := rfl
    rw [compilationFlagsForFile_eq paths (List.ne_nil_of_mem (List.mem_of_getElem? hmarked)), hextra]
      at hflags
    refine flagsFromCommand_marked place (hflags.symm.trans ?_)
    cases hfound : commandFor paths (markedCommands places i) query with
    | none => rfl
    | some found => exact flagsFromCommand_of_not_storedFor hplace hnot hfound
  · intro hstored commands flags hplaces command hcommand
    have hpath : command.filePath paths = filePath paths place.1 place.2 := by
      rw [← hplaces, List.getElem?_map, hcommand] at hplace
      rw [← Option.some.inj hplace]
      rfl
    rw [← hpath] at hstored hsame
    have hown := commandAt_filePath honly hplaces hcommand hsame
    rw [compilationFlagsForFile_eq paths (List.ne_nil_of_mem (List.mem_of_getElem? hcommand)),
      commandFor]
    cases hraw : commandAt paths commands query with
    | some found =>
        -- an entry under the path as it is spelled is the entry
        rw [getElem?_of_commandAt honly hplaces hraw rfl] at hcommand
        obtain rfl := Option.some.inj hcommand
        rfl
    | none =>
        rw [Option.none_or]
        rcases hstored with heq | heq | ⟨heq, hnone⟩
        · rw [heq, hraw] at hown
          cases hown
        · rw [← heq, hown]
          rfl
        · rw [heq] at hown
          have hhidden : commandAt paths commands (paths.filename query) = none := by
            apply List.find?_eq_none.mpr
            intro other hother
            have hmem : other.place ∈ places :=
              hplaces ▸ List.mem_map_of_mem (List.mem_reverse.mp hother)
            exact fun heq => hnone _ hmem (of_decide_eq_true heq)
          rw [hhidden, Option.none_or, hown]
          rfl

end Lookup

/-- The dots of the path that is looked up do not matter. -/
theorem lookup_finds_dots :
    FindsEntry posixPaths [("/b".toList, "a.cpp".toList), ("/b".toList, "b.cpp".toList)] 0
      "/b/./buzz/../a.cpp".toList := by
  refine (@lookup_finds_iff posixPaths _ 0 ("/b".toList, "a.cpp".toList) _ rfl (by decide +kernel)
    ?_).mpr (.inr (.inr (by decide +kernel)))
  rintro (_ | _ | j) other hother heq
  · rfl
  · obtain rfl := Option.some.inj hother
    exact absurd heq (by decide +kernel)
  · cases hother

/-- A command whose file is written relative to the build directory. -/
def relativeCommand : CompileCommand :=
  entryWithArguments "/b".toList "../src/a.cpp".toList ["clang++".toList, "-DNDEBUG".toList]

/-- Those of the entry do. -/
theorem not_lookup_finds_relativeCommand :
    posixPaths.removeDots (relativeCommand.filePath posixPaths) = "/src/a.cpp".toList ∧
      flagsFromCommand relativeCommand [] = ["-DNDEBUG".toList] ∧
      (Database.create posixPaths [relativeCommand] [] []).compilationFlagsForFile posixPaths
        "/src/a.cpp".toList = [] ∧
      ¬ FindsEntry posixPaths [relativeCommand.place] 0 "/src/a.cpp".toList := by
  refine ⟨by decide +kernel, by decide +kernel, by decide +kernel, ?_⟩
  intro hfinds
  exact absurd (hfinds [relativeCommand] [] rfl relativeCommand rfl) (by decide +kernel)

end Mull.CompilationDatabase
