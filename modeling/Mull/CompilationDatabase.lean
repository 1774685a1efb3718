import Mathlib.Algebra.GroupWithZero.Nat
import Mathlib.Data.List.Basic

/-!
# The compilation database

An entry of the database has the arguments of the compiler as a list, or as one command
in which they are joined by blanks and quoted for a shell.  The flags are cut out of both
in the same way: a command is split at blanks, the compiler, `-c` with what follows it
and the name of the file are left out, and the escapes are undone.

The escapes are undone in two passes over the whole flag, which is the same as one pass
(`undoEscapingString_correct`).

The splitting does not know the quotes, and nobody takes them off.  So the two spellings
agree only if every argument that needs quotes is left out anyway (`spellings_agree_iff`).
-/

namespace Mull.CompilationDatabase

/-- `std::string`. -/
abbrev Text := List Char

/-! ### From an entry to the flags -/

/-- The first replacement of `undoEscapingString`: `\"` becomes `"`. -/
def replaceEscapedQuotes : Text → Text
  | '\\' :: '"' :: cs => '"' :: replaceEscapedQuotes cs
  | c :: cs => c :: replaceEscapedQuotes cs
  | [] => []

/-- The second one: `\\` becomes `\`. -/
def replaceEscapedBackslashes : Text → Text
  | '\\' :: '\\' :: cs => '\\' :: replaceEscapedBackslashes cs
  | c :: cs => c :: replaceEscapedBackslashes cs
  | [] => []

def undoEscapingString (string : Text) : Text :=
  replaceEscapedBackslashes (replaceEscapedQuotes string)

/-- The loop of `filterFlags`: `-c` is dropped with the flag after it. -/
def dropCompileFlags : List Text → List Text
  | [] => []
  | flag :: flags =>
      if flag = ['-', 'c'] then
        match flags with
        | [] => []
        | _ :: flags => dropCompileFlags flags
      else flag :: dropCompileFlags flags

def filterFlags (flags : List Text) (stripCompiler : Bool) : List Text :=
  dropCompileFlags (if stripCompiler then flags.tail else flags)

/-- `std::isspace`. -/
def isSpace (c : Char) : Bool :=
  c = ' ' || c = '\t' || c = '\n' || c = '\x0b' || c = '\x0c' || c = '\r'

/-- The words of a text, as `>>` reads them. -/
def flagsFromString (s : Text) : List Text :=
  (s.splitOnP isSpace).filter fun value => !value.isEmpty

structure CompileCommand where
  directory : Text
  file : Text
  command : Text
  arguments : List Text
deriving DecidableEq, Repr

def flagsFromCommand (command : CompileCommand) (extraFlags : List Text) : List Text :=
  let flags :=
    if command.arguments.isEmpty then filterFlags (flagsFromString command.command) true
    else filterFlags command.arguments true
  ((flags.filter (· ≠ command.file)).map undoEscapingString) ++ extraFlags

/-! ### Quoting -/

/-- Quotes and backslashes get a backslash. -/
def escape : Text → Text
  | [] => []
  | c :: cs => if c = '"' ∨ c = '\\' then '\\' :: c :: escape cs else c :: escape cs

/-- An argument that is written as it is. -/
def Plain (argument : Text) : Prop :=
  argument ≠ [] ∧ ∀ c ∈ argument, isSpace c = false ∧ c ≠ '"' ∧ c ≠ '\\'

instance (argument : Text) : Decidable (Plain argument) :=
  @instDecidableAnd _ _ inferInstance (List.decidableBAll _ argument)

/-- Shell quoting: double quotes around an argument that is empty or has blanks, quotes or
    backslashes. -/
def quote (argument : Text) : Text :=
  if Plain argument then argument else '"' :: (escape argument ++ ['"'])

/-- The arguments as one command. -/
def joinArguments (arguments : List Text) : Text :=
  [' '].intercalate (arguments.map quote)

/-- The words that become of an argument. -/
def words (argument : Text) : List Text := flagsFromString (quote argument)

/-! ### Splitting -/

theorem flagsFromString_append (s t : Text) {c : Char} (hc : isSpace c) :
    flagsFromString (s ++ c :: t) = flagsFromString s ++ flagsFromString t := by
  rw [flagsFromString, List.splitOnP_append_cons s t hc, List.filter_append]
  rfl

theorem flagsFromString_of_no_space {s : Text} (hne : s ≠ []) (h : ∀ c ∈ s, isSpace c = false) :
    flagsFromString s = [s] := by
  rw [flagsFromString, List.splitOnP_eq_singleton h]
  simp [hne]

/-- The command is split into the words of the arguments. -/
theorem flagsFromString_joinArguments (arguments : List Text) :
    flagsFromString (joinArguments arguments) = arguments.flatMap words := by
  induction arguments with
  | nil => rfl
  | cons argument arguments ih =>
      cases arguments with
      | nil => simp [joinArguments, words]
      | cons next arguments =>
          have hjoin : joinArguments (argument :: next :: arguments) =
              quote argument ++ ' ' :: joinArguments (next :: arguments) := by
            simp [joinArguments, List.intercalate]
          rw [hjoin, flagsFromString_append _ _ rfl, ih, List.flatMap_cons]
          rfl

/-- A character that is no blank goes in front of the first word, or is one of its own. -/
theorem flagsFromString_cons (s : Text) {c : Char} (hc : isSpace c = false) :
    flagsFromString (c :: s) = [c] :: flagsFromString s ∨
      ∃ word rest, flagsFromString s = word :: rest ∧
        flagsFromString (c :: s) = (c :: word) :: rest := by
  obtain ⟨first, rest, hsplit⟩ := List.exists_cons_of_ne_nil (List.splitOnP_ne_nil isSpace s)
  have hcons : (c :: s).splitOnP isSpace = (c :: first) :: rest := by
    rw [List.splitOnP_cons_eq_if_modifyHead, if_neg (by simp [hc]), hsplit]
    rfl
  simp only [flagsFromString, hcons, hsplit]
  cases first with
  | nil => exact .inl (by simp)
  | cons d first =>
      exact .inr ⟨d :: first, rest.filter fun value => !value.isEmpty, by simp, by simp⟩

theorem no_space_of_mem_flagsFromString {s word : Text} (h : word ∈ flagsFromString s) :
    ∀ c ∈ word, isSpace c = false := by
  induction s generalizing word with
  | nil => simp [flagsFromString] at h
  | cons c s ih =>
      cases hc : isSpace c with
      | true =>
          have hskip : flagsFromString (c :: s) = flagsFromString s :=
            flagsFromString_append [] s hc
          exact ih (hskip ▸ h)
      | false =>
          rcases flagsFromString_cons s hc with hown | ⟨first, rest, hwords, hfront⟩
          · rw [hown] at h
            rcases List.mem_cons.mp h with rfl | h
            · simpa using hc
            · exact ih h
          · rw [hfront] at h
            rcases List.mem_cons.mp h with rfl | h
            · have hfirst := @ih first (by simp [hwords])
              simpa [hc] using hfirst
            · exact ih (by simp [hwords, h])

/-- A text that ends with a quote has a last word that does. -/
theorem flagsFromString_append_quote (s : Text) :
    ∃ before word, flagsFromString (s ++ ['"']) = before ++ [word ++ ['"']] := by
  induction s with
  | nil => exact ⟨[], [], rfl⟩
  | cons c s ih =>
      obtain ⟨before, word, hwords⟩ := ih
      cases hc : isSpace c with
      | true =>
          have hskip : flagsFromString (c :: s ++ ['"']) = flagsFromString (s ++ ['"']) :=
            flagsFromString_append [] _ hc
          exact ⟨before, word, hskip.trans hwords⟩
      | false =>
          rcases flagsFromString_cons (s ++ ['"']) hc with hown | ⟨first, rest, hfirst, hfront⟩
          · exact ⟨[c] :: before, word, by rw [List.cons_append, hown, hwords]; rfl⟩
          · rw [hwords] at hfirst
            rw [List.cons_append, hfront]
            cases before with
            | nil =>
                cases hfirst
                exact ⟨[], c :: word, rfl⟩
            | cons head before =>
                obtain ⟨rfl, rfl⟩ := List.cons.inj hfirst
                exact ⟨(c :: head) :: before, word, rfl⟩

theorem words_of_plain {argument : Text} (h : Plain argument) : words argument = [argument] := by
  rw [words, quote, if_pos h]
  exact flagsFromString_of_no_space h.1 fun c hc => (h.2 c hc).1

theorem words_of_not_plain {argument : Text} (h : ¬ Plain argument) :
    words argument = flagsFromString ('"' :: (escape argument ++ ['"'])) := by
  rw [words, quote, if_neg h]

/-- An argument in quotes has a first word, and it is not `-c`; nor is the last one. -/
theorem exists_words (argument : Text) (h : ¬ Plain argument) :
    ∃ first rest, words argument = first :: rest ∧ first ≠ ['-', 'c'] ∧
      ∀ before last, rest = before ++ [last] → last ≠ ['-', 'c'] := by
  rw [words_of_not_plain h]
  obtain ⟨before, word, hlast⟩ := flagsFromString_append_quote ('"' :: escape argument)
  rw [List.cons_append] at hlast
  have hend : ∀ front last, flagsFromString ('"' :: (escape argument ++ ['"'])) = front ++ [last] →
      last ≠ ['-', 'c'] := by
    rintro front _ heq rfl
    rw [hlast] at heq
    have hword := (List.append_inj' heq rfl).2
    have hquote := congrArg (fun words : List Text => words.flatten.getLast?) hword
    simp at hquote
  rcases flagsFromString_cons (escape argument ++ ['"']) (show isSpace '"' = false from rfl) with
    hown | ⟨first, rest, -, hfront⟩
  · refine ⟨_, _, hown, by decide, fun before last heq => hend (['"'] :: before) last ?_⟩
    rw [hown, heq]
    rfl
  · refine ⟨_, _, hfront, by simp, fun before last heq => hend (('"' :: first) :: before) last ?_⟩
    rw [hfront, heq]
    rfl

/-! ### What undoing the escapes keeps -/

theorem count_replaceEscapedQuotes {c : Char} (hc : c ≠ '\\') (s : Text) :
    (replaceEscapedQuotes s).count c = s.count c := by
  fun_induction replaceEscapedQuotes s with
  | case1 cs ih => simp [List.count_cons, ih, hc.symm]
  | case2 d cs _ ih => simp [List.count_cons, ih]
  | case3 => rfl

theorem count_replaceEscapedBackslashes {c : Char} (hc : c ≠ '\\') (s : Text) :
    (replaceEscapedBackslashes s).count c = s.count c := by
  fun_induction replaceEscapedBackslashes s with
  | case1 cs ih => simp [ih, hc.symm]
  | case2 d cs _ ih => simp [List.count_cons, ih]
  | case3 => rfl

/-- Only backslashes are taken out. -/
theorem count_undoEscapingString {c : Char} (hc : c ≠ '\\') (s : Text) :
    (undoEscapingString s).count c = s.count c := by
  rw [undoEscapingString, count_replaceEscapedBackslashes hc, count_replaceEscapedQuotes hc]

theorem count_escape {c : Char} (hc : c ≠ '\\') (s : Text) : (escape s).count c = s.count c := by
  fun_induction escape s with
  | case1 => rfl
  | case2 d cs _ ih => simp [List.count_cons, ih, hc.symm]
  | case3 d cs _ ih => simp [List.count_cons, ih]

theorem mem_undoEscapingString {c : Char} (hc : c ≠ '\\') {s : Text} :
    c ∈ undoEscapingString s ↔ c ∈ s := by
  rw [← List.count_pos_iff, ← List.count_pos_iff, count_undoEscapingString hc]

/-! ### Undoing the escapes in one pass -/

/-- The escapes are undone in one pass, from left to right. -/
def unescape : Text → Text
  | '\\' :: '"' :: cs => '"' :: unescape cs
  | '\\' :: '\\' :: cs => '\\' :: unescape cs
  | c :: cs => c :: unescape cs
  | [] => []

theorem replaceEscapedQuotes_of_ne {c : Char} (hc : c ≠ '\\') (cs : Text) :
    replaceEscapedQuotes (c :: cs) = c :: replaceEscapedQuotes cs := by
  rw [replaceEscapedQuotes]
  rintro rest rfl
  exact absurd rfl hc

theorem replaceEscapedBackslashes_of_ne {c : Char} (hc : c ≠ '\\') (cs : Text) :
    replaceEscapedBackslashes (c :: cs) = c :: replaceEscapedBackslashes cs := by
  rw [replaceEscapedBackslashes]
  rintro rest rfl
  exact absurd rfl hc

/-- The first pass keeps a backslash that stands before no quote. -/
theorem replaceEscapedQuotes_backslash {cs : Text} (h : ∀ rest, cs ≠ '"' :: rest) :
    replaceEscapedQuotes ('\\' :: cs) = '\\' :: replaceEscapedQuotes cs := by
  rw [replaceEscapedQuotes]
  exact fun rest _ heq => h rest heq

/-- The second pass keeps a backslash that stands before no backslash. -/
theorem replaceEscapedBackslashes_backslash {cs : Text} (h : ∀ rest, cs ≠ '\\' :: rest) :
    replaceEscapedBackslashes ('\\' :: cs) = '\\' :: replaceEscapedBackslashes cs := by
  rw [replaceEscapedBackslashes]
  exact fun rest _ heq => h rest heq

/-- Two backslashes become one in the second pass, whatever the first pass does behind them:
    it takes the second one away only if a quote follows, and then keeps the first. -/
theorem undoEscapingString_backslashes (cs : Text) :
    undoEscapingString ('\\' :: '\\' :: cs) = '\\' :: undoEscapingString cs := by
  unfold undoEscapingString
  rw [replaceEscapedQuotes_backslash (by simp)]
  by_cases hquote : ∃ rest, cs = '"' :: rest
  · obtain ⟨rest, rfl⟩ := hquote
    rw [replaceEscapedQuotes, replaceEscapedBackslashes_backslash (by simp),
      replaceEscapedQuotes_of_ne (by decide)]
  · rw [not_exists] at hquote
    rw [replaceEscapedQuotes_backslash hquote, replaceEscapedBackslashes]

theorem undoEscapingString_quote (cs : Text) :
    undoEscapingString ('\\' :: '"' :: cs) = '"' :: undoEscapingString cs := by
  unfold undoEscapingString
  rw [replaceEscapedQuotes, replaceEscapedBackslashes_of_ne (by decide)]

/-- Other characters are copied, also a backslash that escapes nothing. -/
theorem undoEscapingString_cons {c : Char} {cs : Text} (hquote : ∀ rest, c = '\\' → cs ≠ '"' :: rest)
    (hbackslash : ∀ rest, c = '\\' → cs ≠ '\\' :: rest) :
    undoEscapingString (c :: cs) = c :: undoEscapingString cs := by
  unfold undoEscapingString
  by_cases hc : c = '\\'
  · subst hc
    rw [replaceEscapedQuotes_backslash fun rest => hquote rest rfl]
    refine replaceEscapedBackslashes_backslash fun rest heq => ?_
    cases cs with
    | nil => cases heq
    | cons d cs =>
        have hd : d ≠ '\\' := by
          rintro rfl
          exact hbackslash cs rfl rfl
        rw [replaceEscapedQuotes_of_ne hd] at heq
        exact hd (List.cons.inj heq).1
  · rw [replaceEscapedQuotes_of_ne hc, replaceEscapedBackslashes_of_ne hc]

theorem undoEscapingString_eq_unescape (s : Text) : undoEscapingString s = unescape s := by
  fun_induction unescape s with
  | case1 cs ih => rw [undoEscapingString_quote, ih]
  | case2 cs ih => rw [undoEscapingString_backslashes, ih]
  | case3 c cs hquote hbackslash ih =>
      rw [undoEscapingString_cons hquote hbackslash, ih]
  | case4 => rfl

theorem unescape_escape (t : Text) : unescape (escape t) = t := by
  fun_induction escape t with
  | case1 => rfl
  | case2 c cs hc ih =>
      rcases hc with rfl | rfl
      · rw [unescape, ih]
      · rw [unescape, ih]
  | case3 c cs hc ih =>
      rw [not_or] at hc
      rw [unescape, ih]
      · exact fun _ hbackslash => absurd hbackslash hc.2
      · exact fun _ hbackslash => absurd hbackslash hc.2

/-- **Un-escaping in two passes is un-escaping in one pass**, and undoes escaping. -/
theorem undoEscapingString_correct (s t : Text) :
    undoEscapingString s = unescape s ∧ undoEscapingString (escape t) = t :=
  ⟨undoEscapingString_eq_unescape s, by rw [undoEscapingString_eq_unescape, unescape_escape]⟩

/-! ### When the spellings agree -/

/-- With the first word of the argument all its words are left out. -/
def LeftOut (argument : Text) : Prop := filterFlags (words argument) true = []

/-- Behind `-c` stands an argument that is left out, and all others but `-c` are plain. -/
def RestFits : List Text → Prop
  | [] => True
  | argument :: arguments =>
      if argument = ['-', 'c'] then
        match arguments with
        | [] => True
        | next :: arguments => LeftOut next ∧ RestFits arguments
      else Plain argument ∧ RestFits arguments

/-- The arguments that need quotes are the compiler or stand behind `-c`, and are left out
    with all their words. -/
def Fits : List Text → Prop
  | [] => True
  | compiler :: arguments => LeftOut compiler ∧ RestFits arguments

theorem dropCompileFlags_compile (flag : Text) (flags : List Text) :
    dropCompileFlags (['-', 'c'] :: flag :: flags) = dropCompileFlags flags := by
  simp only [dropCompileFlags, if_true]

theorem dropCompileFlags_cons {flag : Text} (h : flag ≠ ['-', 'c']) (flags : List Text) :
    dropCompileFlags (flag :: flags) = flag :: dropCompileFlags flags := by
  cases flags <;> simp only [dropCompileFlags, if_neg h]

theorem dropCompileFlags_append {flags : List Text} (rest : List Text)
    (h : ∀ before last, flags = before ++ [last] → last ≠ ['-', 'c']) :
    dropCompileFlags (flags ++ rest) = dropCompileFlags flags ++ dropCompileFlags rest := by
  fun_induction dropCompileFlags flags with
  | case1 => rfl
  | case2 => exact absurd rfl (h [] ['-', 'c'] rfl)
  | case3 flag flags ih =>
      rw [List.cons_append, List.cons_append, dropCompileFlags_compile]
      exact ih fun before last heq => h (['-', 'c'] :: flag :: before) last (by simp [heq])
  | case4 flag flags hflag ih =>
      rw [List.cons_append, dropCompileFlags_cons hflag, List.cons_append]
      rw [ih fun before last heq => h (flag :: before) last (by simp [heq])]

/-- What is left of an argument that is left out on the other side does not reach into the
    next arguments. -/
theorem dropCompileFlags_words_tail (argument : Text) (rest : List Text) :
    dropCompileFlags ((words argument).tail ++ rest) =
      filterFlags (words argument) true ++ dropCompileFlags rest := by
  by_cases hplain : Plain argument
  · rw [words_of_plain hplain]
    rfl
  · obtain ⟨first, tail, hwords, -, hlast⟩ := exists_words argument hplain
    rw [hwords]
    exact dropCompileFlags_append rest hlast

theorem words_ne_nil (argument : Text) : words argument ≠ [] := by
  by_cases hplain : Plain argument
  · simp [words_of_plain hplain]
  · obtain ⟨first, tail, hwords, -⟩ := exists_words argument hplain
    simp [hwords]

theorem words_compile : words ['-', 'c'] = [['-', 'c']] := by decide

/-- The words of the argument behind `-c`, except the first. -/
theorem dropCompileFlags_flatMap_compile (next : Text) (arguments : List Text) :
    dropCompileFlags ((['-', 'c'] :: next :: arguments).flatMap words) =
      filterFlags (words next) true ++ dropCompileFlags (arguments.flatMap words) := by
  obtain ⟨first, tail, hwords⟩ := List.exists_cons_of_ne_nil (words_ne_nil next)
  rw [← dropCompileFlags_words_tail, List.flatMap_cons, List.flatMap_cons, words_compile, hwords]
  exact dropCompileFlags_compile first _

theorem dropCompileFlags_flatMap_words {arguments : List Text} (h : RestFits arguments) :
    dropCompileFlags (arguments.flatMap words) = dropCompileFlags arguments := by
  fun_induction RestFits arguments with
  | case1 => rfl
  | case2 => decide
  | case3 next arguments ih =>
      rw [dropCompileFlags_flatMap_compile, h.1, ih h.2, dropCompileFlags_compile, List.nil_append]
  | case4 argument arguments hnot ih =>
      rw [List.flatMap_cons, words_of_plain h.1, List.singleton_append, dropCompileFlags_cons hnot,
        dropCompileFlags_cons hnot, ih h.2]

/-! A measure of flags: their number, and the number of quotes in them. -/

def weight (flags : List Text) : Nat := (flags.map fun flag => flag.count '"' + 1).sum

theorem weight_append (flags flags' : List Text) :
    weight (flags ++ flags') = weight flags + weight flags' := by
  simp [weight]

theorem weight_cons (flag : Text) (flags : List Text) :
    weight (flag :: flags) = flag.count '"' + 1 + weight flags := by
  simp [weight]

theorem eq_nil_of_weight {flags : List Text} (h : weight flags = 0) : flags = [] := by
  cases flags with
  | nil => rfl
  | cons flag flags =>
      rw [weight_cons] at h
      omega

theorem weight_map_undoEscapingString (flags : List Text) :
    weight (flags.map undoEscapingString) = weight flags := by
  simp [weight, Function.comp_def, count_undoEscapingString (show '"' ≠ '\\' by decide)]

/-- An argument in quotes without blanks is one word with two more quotes. -/
theorem words_of_no_space {argument : Text} (h : ¬ Plain argument)
    (hspace : ∀ c ∈ argument, isSpace c = false) :
    words argument = ['"' :: (escape argument ++ ['"'])] := by
  rw [words_of_not_plain h]
  refine flagsFromString_of_no_space (by simp) ?_
  intro c hc
  by_cases hbackslash : c = '\\'
  · subst hbackslash
    rfl
  · have hmem : c = '"' ∨ c ∈ escape argument := by simpa [or_comm] using hc
    rcases hmem with rfl | hmem
    · rfl
    · rw [← List.count_pos_iff, count_escape hbackslash, List.count_pos_iff] at hmem
      exact hspace c hmem

/-- Splitting a command loses no weight, and keeps it only if the arguments fit. -/
theorem weight_words {arguments : List Text}
    (hspace : ∀ flag ∈ dropCompileFlags arguments, ∀ c ∈ flag, isSpace c = false) :
    weight (dropCompileFlags arguments) ≤ weight (dropCompileFlags (arguments.flatMap words)) ∧
      (weight (dropCompileFlags arguments) = weight (dropCompileFlags (arguments.flatMap words)) →
        RestFits arguments) := by
  fun_induction RestFits arguments with
  | case1 => simp
  | case2 =>
      refine ⟨?_, fun _ => trivial⟩
      decide
  | case3 next arguments ih =>
      rw [dropCompileFlags_compile] at hspace ⊢
      obtain ⟨hle, hfits⟩ := ih hspace
      rw [dropCompileFlags_flatMap_compile, weight_append]
      refine ⟨by omega, fun heq => ⟨eq_nil_of_weight (by omega), hfits (by omega)⟩⟩
  | case4 argument arguments hnot ih =>
      rw [dropCompileFlags_cons hnot] at hspace ⊢
      rw [List.forall_mem_cons] at hspace
      obtain ⟨hle, hfits⟩ := ih hspace.2
      rw [List.flatMap_cons, weight_cons]
      by_cases hplain : Plain argument
      · rw [words_of_plain hplain, List.singleton_append, dropCompileFlags_cons hnot, weight_cons]
        exact ⟨by omega, fun heq => ⟨hplain, hfits (by omega)⟩⟩
      · -- the quotes around the argument make the word heavier
        rw [words_of_no_space hplain hspace.1, List.singleton_append,
          dropCompileFlags_cons (by simp), weight_cons]
        have hcount : ('"' :: (escape argument ++ ['"'])).count '"' = argument.count '"' + 2 := by
          simp [count_escape (show '"' ≠ '\\' by decide)]
        rw [hcount]
        exact ⟨by omega, fun heq => absurd heq (by omega)⟩

/-! ### The two spellings -/

def entryWithArguments (directory file : Text) (arguments : List Text) : CompileCommand :=
  ⟨directory, file, [], arguments⟩

def entryWithCommand (directory file : Text) (arguments : List Text) : CompileCommand :=
  ⟨directory, file, joinArguments arguments, []⟩

theorem flagsFromCommand_entryWithArguments (directory file : Text)
    (arguments extraFlags : List Text) :
    flagsFromCommand (entryWithArguments directory file arguments) extraFlags =
      ((filterFlags arguments true).filter (· ≠ file)).map undoEscapingString ++ extraFlags := by
  cases arguments <;> rfl

theorem flagsFromCommand_entryWithCommand (directory file : Text)
    (arguments extraFlags : List Text) :
    flagsFromCommand (entryWithCommand directory file arguments) extraFlags =
      ((filterFlags (arguments.flatMap words) true).filter (· ≠ file)).map undoEscapingString ++
        extraFlags := by
  rw [← flagsFromString_joinArguments]
  rfl

/-- The flags of the whole command. -/
theorem filterFlags_flatMap_words (compiler : Text) (arguments : List Text) :
    filterFlags ((compiler :: arguments).flatMap words) true =
      filterFlags (words compiler) true ++ dropCompileFlags (arguments.flatMap words) := by
  rw [← dropCompileFlags_words_tail, filterFlags, if_pos rfl, List.flatMap_cons,
    List.tail_append_of_ne_nil (words_ne_nil compiler)]

theorem mem_of_mem_dropCompileFlags {flag : Text} {flags : List Text}
    (h : flag ∈ dropCompileFlags flags) : flag ∈ flags := by
  fun_induction dropCompileFlags flags with
  | case1 => exact h
  | case2 => cases h
  | case3 next flags ih => exact List.mem_cons_of_mem _ (List.mem_cons_of_mem _ (ih h))
  | case4 first flags hfirst ih =>
      rcases List.mem_cons.mp h with rfl | h
      · exact List.mem_cons_self
      · exact List.mem_cons_of_mem _ (ih h)

theorem no_space_of_mem_words {arguments : List Text} {flag : Text}
    (h : flag ∈ filterFlags (arguments.flatMap words) true) : ∀ c ∈ flag, isSpace c = false := by
  obtain ⟨argument, -, hword⟩ :=
    List.mem_flatMap.mp (List.mem_of_mem_tail (mem_of_mem_dropCompileFlags h))
  exact no_space_of_mem_flagsFromString hword

/-- **The two spellings of an entry give the same flags, whatever the file, if and only if
    all arguments are plain but the compiler and those that are dropped behind `-c`, and of
    these the quoted form leaves nothing over.** -/
theorem spellings_agree_iff (arguments : List Text) :
    (∀ directory file extraFlags,
      flagsFromCommand (entryWithArguments directory file arguments) extraFlags =
        flagsFromCommand (entryWithCommand directory file arguments) extraFlags) ↔
      Fits arguments := by
  simp only [flagsFromCommand_entryWithArguments, flagsFromCommand_entryWithCommand,
    List.append_left_inj]
  cases arguments with
  | nil => simp [Fits]
  | cons compiler arguments =>
      have harguments : filterFlags (compiler :: arguments) true = dropCompileFlags arguments := rfl
      constructor
      · intro hagree
        -- a file that is neither an argument nor a word
        let file : Text := ' ' :: (compiler :: arguments).flatten
        have hfile : ∀ flag ∈ filterFlags (compiler :: arguments) true, flag ≠ file := by
          intro flag hflag heq
          have hmem : flag ∈ compiler :: arguments :=
            List.mem_cons_of_mem _ (mem_of_mem_dropCompileFlags hflag)
          have hlength := (List.sublist_flatten_of_mem hmem).length_le
          rw [heq, List.length_cons] at hlength
          omega
        have hfile' : ∀ flag ∈ filterFlags ((compiler :: arguments).flatMap words) true,
            flag ≠ file := by
          rintro flag hflag rfl
          exact absurd (no_space_of_mem_words hflag ' ' List.mem_cons_self) (by decide)
        have hflags := hagree [] file []
        rw [List.filter_eq_self.mpr (by simpa using hfile),
          List.filter_eq_self.mpr (by simpa using hfile')] at hflags
        have hspace : ∀ flag ∈ dropCompileFlags arguments, ∀ c ∈ flag, isSpace c = false := by
          intro flag hflag c hc
          by_cases hbackslash : c = '\\'
          · subst hbackslash
            rfl
          · have hmem : undoEscapingString flag ∈
                (filterFlags (compiler :: arguments) true).map undoEscapingString :=
              List.mem_map_of_mem hflag
            rw [hflags] at hmem
            obtain ⟨word, hword, heq⟩ := List.mem_map.mp hmem
            rw [← mem_undoEscapingString hbackslash, ← heq, mem_undoEscapingString hbackslash] at hc
            exact no_space_of_mem_words hword c hc
        obtain ⟨hle, hfits⟩ := weight_words hspace
        have hweight := congrArg weight hflags
        rw [weight_map_undoEscapingString, weight_map_undoEscapingString, harguments,
          filterFlags_flatMap_words, weight_append] at hweight
        exact ⟨eq_nil_of_weight (by omega), hfits (by omega)⟩
      · rintro ⟨hcompiler, hrest⟩ - file -
        rw [filterFlags_flatMap_words, hcompiler, dropCompileFlags_flatMap_words hrest, harguments,
          List.nil_append]

/-- A definition with a blank: the command gives two halves with a quote each. -/
theorem not_spellings_agree_blank :
    flagsFromCommand (entryWithArguments "/p".toList "a.cpp".toList
      ["clang++".toList, "-DTEXT=a b".toList, "-c".toList, "a.cpp".toList]) [] =
      ["-DTEXT=a b".toList] ∧
    flagsFromCommand (entryWithCommand "/p".toList "a.cpp".toList
      ["clang++".toList, "-DTEXT=a b".toList, "-c".toList, "a.cpp".toList]) [] =
      ["\"-DTEXT=a".toList, "b\"".toList] := by
  decide +kernel

end Mull.CompilationDatabase
