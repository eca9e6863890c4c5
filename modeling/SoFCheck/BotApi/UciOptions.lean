import SoFCheck.BotApi.Options
import SoFCheck.BotApi.UciPosition

namespace SoFCheck.BotApi.UciOptions

open SoFCheck.Util.CString SoFCheck.Util.Strutil
open SoFCheck.BotApi.UciPosition SoFCheck.BotApi.Options

section Escape

/-- Add a token to a string of tokens. -/
def addToken (result token : List Byte) : List Byte :=
  (if result ≠ [] then result ++ [(' ' : Byte)] else result) ++ token

def transformTokens (name : List Byte) (transform : List Byte → List Byte) : List Byte :=
  (tokensOf isSpace (cString name)).foldl (fun result token => addToken result (transform token)) []

def isBadToken (str : List Byte) : Bool :=
  let rest := str.dropWhile (· == ('_' : Byte))
  rest == bytes "name" || rest == bytes "value" || rest == bytes "val"

def escapeToken (str : List Byte) : List Byte := if isBadToken str then '_' :: str else str

def unescapeToken (str : List Byte) : List Byte :=
  if isBadToken str && str.head? = some ('_' : Byte) then str.tail else str

def uciNameEscape (name : List Byte) : List Byte := transformTokens name escapeToken

def uciNameUnescape (name : List Byte) : List Byte := transformTokens name unescapeToken

def uciOptionNameEscape (name : List Byte) : List Byte := uciNameEscape name

def uciOptionNameUnescape (name : List Byte) : List Byte := uciNameUnescape name

def uciEnumNameEscape (item : List Byte) : List Byte := uciNameEscape item

def uciEnumNameUnescape (item : List Byte) : List Byte := uciNameUnescape item

end Escape

section SetOption

inductive PollResult where
  | ok
  | noData
  deriving DecidableEq, Repr

/-- `tokens >> token`: the token and what is left of the stream. -/
def extract (tokens : List Byte) : Option (List Byte × List Byte) :=
  let tokens := tokens.dropWhile isStreamSpace
  if tokens = [] then none
  else some (tokens.takeWhile (!isStreamSpace ·), tokens.dropWhile (!isStreamSpace ·))

theorem length_extract {tokens token rest : List Byte} (h : extract tokens = some (token, rest)) :
    rest.length < tokens.length := by
  simp only [extract] at h
  split_ifs at h with hne
  cases h
  obtain ⟨c, s, hs⟩ := List.exists_cons_of_ne_nil hne
  have hc : isStreamSpace c = false := by
    have hhead := List.head?_dropWhile_not isStreamSpace tokens
    rw [hs] at hhead
    simpa using hhead
  have hlen := (tokens.dropWhile_sublist isStreamSpace).length_le
  have hrest := (s.dropWhile_sublist (!isStreamSpace ·)).length_le
  rw [hs] at hlen ⊢
  rw [List.dropWhile_cons_of_pos (by simp [hc])]
  rw [List.length_cons] at hlen
  omega

/-- The words up to the end of the line or the word `value`. -/
def seekValue (tokens name : List Byte) : List Byte × List Byte :=
  match _h : extract tokens with
  | none => (name, [])
  | some (token, rest) =>
    if token = bytes "value" then (name, rest) else seekValue rest (addToken name token)
  termination_by tokens.length
  decreasing_by exact length_extract _h

/-- The part of `processUciSetOption` that reads the name. -/
def readOptionName (tokens : List Byte) : Option (List Byte × List Byte) :=
  match extract tokens with
  | none => none
  | some (token, tokens) =>
    let (name, tokens) := seekValue tokens (if token ≠ bytes "name" then token else [])
    some (uciOptionNameUnescape name, tokens)

/-- All words of the stream, with one space between them. -/
def readWords (tokens value : List Byte) : List Byte :=
  match _h : extract tokens with
  | none => value
  | some (token, rest) => readWords rest (addToken value token)
  termination_by tokens.length
  decreasing_by exact length_extract _h

def readWord (tokens : List Byte) : List Byte :=
  match extract tokens with
  | none => []
  | some (token, _) => token

/-- `std::getline`. -/
def readLine (tokens : List Byte) : List Byte := tokens.takeWhile (· != '\n')

/-- `valueFromStr` for `int64_t`. -/
def intFromStr (str : List Byte) : Option Int :=
  match str with
  | c :: digits =>
    if c = '-' then (valueFromStr (2 ^ 63) digits).map fun n => -(n : Int)
    else (valueFromStr (2 ^ 63 - 1) str).map fun n => (n : Int)
  | [] => none

/-- The part of `processUciSetOption` that reads the value and sets it. -/
def setValue (opts : OptionStorage) (type : OptionType) (name tokens : List Byte) :
    PollResult × OptionStorage :=
  match type with
  | .bool =>
    let value := readWord tokens
    if value = bytes "0" ∨ value = bytes "false" then (.ok, (opts.setBool name false).2)
    else if value = bytes "1" ∨ value = bytes "true" then (.ok, (opts.setBool name true).2)
    else (.noData, opts)
  | .int =>
    match intFromStr (readWord tokens) with
    | none => (.noData, opts)
    | some result => (.ok, (opts.setInt name result).2)
  | .string =>
    let value := trim (readLine tokens)
    (.ok, (opts.setString name (if value = bytes "<empty>" then [] else value)).2)
  | .enum => (.ok, (opts.setEnumItem name (uciEnumNameUnescape (readWords tokens []))).2)
  | .action => (.ok, (opts.triggerAction name).2)

def processUciSetOption (opts : OptionStorage) (tokens : List Byte) : PollResult × OptionStorage :=
  match readOptionName tokens with
  | none => (.noData, opts)
  | some (name, tokens) =>
    match opts.type name with
    | none => (.noData, opts)
    | some type => setValue opts type name tokens

/-- The words before the command are skipped. -/
def scanCommandWord (tokens : List Byte) : Option (Command × List Byte) :=
  match _h : extract tokens with
  | none => none
  | some (token, rest) =>
    match commandOf token with
    | some command => some (command, rest)
    | none => scanCommandWord rest
  termination_by tokens.length
  decreasing_by exact length_extract _h

end SetOption

section Names

variable {c : Byte} {s w : List Byte} {ws : List (List Byte)}

/-- What a word of a name is made of. -/
structure NameWord (w : List Byte) : Prop where
  nonempty : w ≠ []
  printable : ∀ c ∈ w, 32 < c ∧ c ≤ 126

instance (w : List Byte) : Decidable (NameWord w) :=
  decidable_of_iff (w ≠ [] ∧ ∀ c ∈ w, 32 < c ∧ c ≤ 126) ⟨fun h => ⟨h.1, h.2⟩, fun h => ⟨h.1, h.2⟩⟩

theorem nameWords_setoption : NameWord (bytes "setoption") ∧ NameWord (bytes "name") ∧
    NameWord (bytes "value") ∧ commandOf (bytes "setoption") = some .setoption := by
  refine ⟨?_, ?_, ?_, by decide +kernel⟩ <;>
    simp only [bytes, String.reduceToList] <;> decide +kernel

theorem visible_of_printable (h : 32 < c ∧ c ≤ 126) :
    isVisible c = true ∧ isStreamSpace c = false := by
  have hall : ∀ b : BitVec 8, 32 < (⟨b⟩ : Byte) ∧ (⟨b⟩ : Byte) ≤ 126 →
      isVisible ⟨b⟩ = true ∧ isStreamSpace ⟨b⟩ = false := by decide +kernel
  exact hall c.toBitVec h

theorem NameWord.word (h : NameWord w) : Word w :=
  ⟨h.nonempty, fun c hc => (visible_of_printable (h.printable c hc)).1⟩

/-- Words with one space between them. -/
def join (w : List Byte) (ws : List (List Byte)) : List Byte :=
  w ++ ws.flatMap fun w => (' ' : Byte) :: w

theorem isOptionNameValid_iff : isOptionNameValid s = true ↔
    s ≠ [] ∧ s.head? ≠ some (' ' : Byte) ∧ s.getLast? ≠ some (' ' : Byte) ∧ (∀ c ∈ s, 32 ≤ c ∧ c ≤ 126) ∧
      ∀ p ∈ s.zip s.tail, ¬(p.1 = ' ' ∧ p.2 = ' ') := by
  rw [isOptionNameValid]
  split_ifs with hends hchars
  · refine iff_of_false not_false ?_
    rintro ⟨hne, hhead, hlast, -⟩
    obtain h | h | h := hends
    · exact hne h
    · exact hhead h
    · exact hlast h
  · refine iff_of_false not_false ?_
    rintro ⟨-, -, -, hall, -⟩
    obtain ⟨c, hc, h⟩ := List.any_eq_true.mp hchars
    obtain ⟨h32, h126⟩ := hall c hc
    simp [UInt8.not_lt.mpr h32, UInt8.not_lt.mpr h126] at h
  · obtain ⟨hne, hends⟩ := not_or.mp hends
    obtain ⟨hhead, hlast⟩ := not_or.mp hends
    have hall : ∀ c ∈ s, 32 ≤ c ∧ c ≤ 126 := by
      intro c hc
      simp only [List.any_eq_true, not_exists, not_and] at hchars
      simpa [UInt8.not_lt] using hchars c hc
    have hpairs : (!(s.zip s.tail).any fun p => p.1 == ' ' && p.2 == ' ') = true ↔
        ∀ p ∈ s.zip s.tail, ¬(p.1 = ' ' ∧ p.2 = ' ') := by
      rw [Bool.not_eq_true', List.any_eq_false]
      simp only [Bool.and_eq_true, beq_iff_eq]
    rw [hpairs]
    exact ⟨fun h => ⟨hne, hhead, hlast, hall, h⟩, fun h => h.2.2.2.2⟩

theorem isOptionNameValid_tail {d : Byte} (h : isOptionNameValid (c :: d :: s) = true)
    (hd : d ≠ ' ') : isOptionNameValid (d :: s) = true := by
  obtain ⟨-, -, hlast, hall, hpairs⟩ := isOptionNameValid_iff.mp h
  refine isOptionNameValid_iff.mpr ⟨List.cons_ne_nil _ _, by simpa using hd, ?_,
    fun c' hc' => hall c' (List.mem_cons_of_mem _ hc'), fun p hp => hpairs p ?_⟩
  · rwa [List.getLast?_cons_cons] at hlast
  · exact List.mem_cons_of_mem _ hp

theorem isOptionNameValid_tail_space (h : isOptionNameValid (c :: ' ' :: s) = true) :
    isOptionNameValid s = true := by
  obtain ⟨-, -, hlast, hall, hpairs⟩ := isOptionNameValid_iff.mp h
  match s with
  | [] => exact absurd rfl hlast
  | d :: s =>
    have hd : d ≠ ' ' := fun hd =>
      hpairs (' ', d) (List.mem_cons_of_mem _ List.mem_cons_self) ⟨rfl, hd⟩
    refine isOptionNameValid_iff.mpr ⟨List.cons_ne_nil _ _, by simpa using hd, ?_,
      fun c' hc' => hall c' (List.mem_cons_of_mem _ (List.mem_cons_of_mem _ hc')),
      fun p hp => hpairs p ?_⟩
    · rwa [List.getLast?_cons_cons, List.getLast?_cons_cons] at hlast
    · exact List.mem_cons_of_mem _ (List.mem_cons_of_mem _ hp)

theorem printable_of_ne (h : 32 ≤ c ∧ c ≤ 126) (hc : c ≠ ' ') : 32 < c ∧ c ≤ 126 :=
  ⟨UInt8.lt_of_le_of_ne h.1 (Ne.symm hc), h.2⟩

theorem exists_words (h : isOptionNameValid s = true) :
    ∃ w ws, s = join w ws ∧ ∀ w' ∈ w :: ws, NameWord w' := by
  induction hn : s.length using Nat.strong_induction_on generalizing s with
  | _ n ih =>
    obtain ⟨hne, hhead, hlast, hall, hpairs⟩ := isOptionNameValid_iff.mp h
    match s with
    | [] => exact absurd rfl hne
    | [c] =>
      have hc : NameWord [c] := ⟨List.cons_ne_nil _ _, List.forall_mem_singleton.mpr
        (printable_of_ne (hall c List.mem_cons_self) fun hc => hhead (congrArg some hc))⟩
      exact ⟨[c], [], rfl, List.forall_mem_singleton.mpr hc⟩
    | c :: d :: s =>
      have hc : 32 < c ∧ c ≤ 126 :=
        printable_of_ne (hall c List.mem_cons_self) fun hc => hhead (congrArg some hc)
      by_cases hd : d = ' '
      · subst hd
        obtain ⟨w, ws, hs, hw⟩ := ih s.length (by simp at hn; omega)
          (isOptionNameValid_tail_space h) rfl
        have hword : NameWord [c] := ⟨List.cons_ne_nil _ _, List.forall_mem_singleton.mpr hc⟩
        exact ⟨[c], w :: ws, by rw [hs]; simp [join], List.forall_mem_cons.mpr ⟨hword, hw⟩⟩
      · obtain ⟨w, ws, hs, hw⟩ := ih (d :: s).length (by simp at hn ⊢; omega)
          (isOptionNameValid_tail h hd) rfl
        obtain ⟨hw, hws⟩ := List.forall_mem_cons.mp hw
        have hword : NameWord (c :: w) :=
          ⟨List.cons_ne_nil _ _, List.forall_mem_cons.mpr ⟨hc, hw.printable⟩⟩
        exact ⟨c :: w, ws, by rw [hs]; simp [join], List.forall_mem_cons.mpr ⟨hword, hws⟩⟩

theorem foldl_addToken {f : List Byte → List Byte} (hw : w ≠ []) :
    ws.foldl (fun result token => addToken result (f token)) w = join w (ws.map f) := by
  induction ws generalizing w with
  | nil => simp [join]
  | cons w' ws ih =>
    have hne : addToken w (f w') ≠ [] := by simp [addToken, hw]
    rw [List.foldl_cons, ih hne, addToken, if_pos hw, join, join]
    simp

theorem transformTokens_join {f : List Byte → List Byte} (hf : f w ≠ [])
    (hws : ∀ w' ∈ w :: ws, NameWord w') :
    transformTokens (join w ws) f = join (f w) (ws.map f) := by
  have hwords := List.forall_mem_cons.mp fun w' hw' => (hws w' hw').word
  have h0 : (0 : Byte) ∉ join w ws := by
    intro h
    obtain hv | hs := mem_words hwords.1 hwords.2 h
    · exact absurd hv (by decide)
    · exact absurd hs (by decide)
  rw [transformTokens, cString_eq_self h0, join, tokensOf_words hwords.1 hwords.2, List.foldl_cons]
  have hfirst : addToken [] (f w) = f w := rfl
  rw [hfirst, foldl_addToken hf]

theorem isBadToken_cons (w : List Byte) : isBadToken ('_' :: w) = isBadToken w := by
  rw [isBadToken, isBadToken, List.dropWhile_cons_of_pos (by decide)]

theorem unescapeToken_escapeToken (w : List Byte) : unescapeToken (escapeToken w) = w := by
  rw [escapeToken]
  split_ifs with h
  · rw [unescapeToken, isBadToken_cons, h]
    rfl
  · rw [unescapeToken, if_neg (by simp [h])]

theorem escapeToken_ne (w : List Byte) : escapeToken w ≠ bytes "name" ∧
    escapeToken w ≠ bytes "value" ∧ escapeToken w ≠ bytes "val" := by
  have hbad : isBadToken (bytes "name") = true ∧ isBadToken (bytes "value") = true ∧
      isBadToken (bytes "val") = true := by decide
  have hhead : (bytes "name").head? ≠ some ('_' : Byte) ∧ (bytes "value").head? ≠ some ('_' : Byte) ∧
      (bytes "val").head? ≠ some ('_' : Byte) := by decide
  have hne : ∀ v, isBadToken v = true → v.head? ≠ some ('_' : Byte) → escapeToken w ≠ v := by
    intro v hv hv' he
    rw [escapeToken] at he
    split_ifs at he with h
    · exact hv' (by rw [← he]; rfl)
    · rw [he] at h
      exact h hv
  exact ⟨hne _ hbad.1 hhead.1, hne _ hbad.2.1 hhead.2.1, hne _ hbad.2.2 hhead.2.2⟩

theorem nameWord_escapeToken (h : NameWord w) : NameWord (escapeToken w) := by
  rw [escapeToken]
  split_ifs
  · exact ⟨List.cons_ne_nil _ _, List.forall_mem_cons.mpr ⟨by decide, h.printable⟩⟩
  · exact h

theorem exists_escaped (h : isOptionNameValid s = true) : ∃ w ws, s = join w ws ∧
    uciNameEscape s = join (escapeToken w) (ws.map escapeToken) ∧
    ∀ w' ∈ escapeToken w :: ws.map escapeToken, NameWord w' ∧ w' ≠ bytes "name" ∧
      w' ≠ bytes "value" ∧ w' ≠ bytes "val" := by
  obtain ⟨w, ws, rfl, hws⟩ := exists_words h
  have hw := (List.forall_mem_cons.mp hws).1
  refine ⟨w, ws, rfl, transformTokens_join (nameWord_escapeToken hw).nonempty hws, fun w' hw' => ?_⟩
  rw [← List.map_cons, List.mem_map] at hw'
  obtain ⟨v, hv, rfl⟩ := hw'
  exact ⟨nameWord_escapeToken (hws v hv), escapeToken_ne v⟩

theorem uciNameUnescape_escape (h : isOptionNameValid s = true) :
    uciNameUnescape (uciNameEscape s) = s := by
  obtain ⟨w, ws, hs, he, hws⟩ := exists_escaped h
  have hwords : ∀ w' ∈ escapeToken w :: ws.map escapeToken, NameWord w' :=
    fun w' hw' => (hws w' hw').1
  have hw : unescapeToken (escapeToken w) ≠ [] := by
    rw [unescapeToken_escapeToken]
    intro hnil
    have hempty := (hwords _ List.mem_cons_self).nonempty
    rw [hnil] at hempty
    exact hempty rfl
  have hmap : (ws.map escapeToken).map unescapeToken = ws := by
    rw [List.map_map]
    exact (List.map_congr_left fun v _ => unescapeToken_escapeToken v).trans (List.map_id' ws)
  rw [he, uciNameUnescape, transformTokens_join hw hwords, unescapeToken_escapeToken, hmap, hs]

end Names

section Stream

variable {w rest : List Byte} {ws : List (List Byte)}

/-- The stream ends after a word, or goes on with a space. -/
def EndsWord (rest : List Byte) : Prop := ∀ c ∈ rest.head?, isStreamSpace c = true

theorem extract_word (hw : NameWord w) (hrest : EndsWord rest) :
    extract (w ++ rest) = some (w, rest) := by
  have hvisible : ∀ c ∈ w, isStreamSpace c = false :=
    fun c hc => (visible_of_printable (hw.printable c hc)).2
  have hpos : ∀ c ∈ w, (!isStreamSpace c) = true := fun c hc => by rw [hvisible c hc]; rfl
  obtain ⟨c, v, rfl⟩ := List.exists_cons_of_ne_nil hw.nonempty
  have hdrop : (c :: v ++ rest).dropWhile isStreamSpace = c :: v ++ rest := by
    rw [List.cons_append, List.dropWhile_cons_of_neg]
    rw [hvisible c List.mem_cons_self]
    exact Bool.false_ne_true
  have htail : rest.takeWhile (!isStreamSpace ·) = [] ∧
      rest.dropWhile (!isStreamSpace ·) = rest := by
    cases rest with
    | nil => exact ⟨rfl, rfl⟩
    | cons d rest =>
      have hd : isStreamSpace d = true := hrest d rfl
      exact ⟨List.takeWhile_cons_of_neg (by simp [hd]), List.dropWhile_cons_of_neg (by simp [hd])⟩
  rw [extract, hdrop, if_neg (by simp), List.takeWhile_append_of_pos hpos,
    List.dropWhile_append_of_pos hpos, htail.1, htail.2, List.append_nil]

theorem extract_space (tokens : List Byte) : extract (' ' :: tokens) = extract tokens := by
  rw [extract, extract, List.dropWhile_cons_of_pos (by decide)]

theorem seekValue_word (hw : NameWord w) (hv : w ≠ bytes "value") (hrest : EndsWord rest)
    (name : List Byte) :
    seekValue (' ' :: (w ++ rest)) name = seekValue rest (addToken name w) := by
  rw [seekValue, extract_space, extract_word hw hrest]
  dsimp only
  rw [if_neg hv]

theorem readWords_word (hw : NameWord w) (hrest : EndsWord rest) (value : List Byte) :
    readWords (' ' :: (w ++ rest)) value = readWords rest (addToken value w) := by
  rw [readWords, extract_space, extract_word hw hrest]

theorem endsWord_words (hrest : EndsWord rest) :
    EndsWord ((ws.flatMap fun w => (' ' : Byte) :: w) ++ rest) := by
  cases ws with
  | nil => exact hrest
  | cons w ws =>
    intro c hc
    cases hc
    decide

theorem seekValue_words (hws : ∀ w ∈ ws, NameWord w ∧ w ≠ bytes "value") (hrest : EndsWord rest)
    (name : List Byte) : seekValue ((ws.flatMap fun w => (' ' : Byte) :: w) ++ rest) name =
      seekValue rest (ws.foldl addToken name) := by
  induction ws generalizing name with
  | nil => rfl
  | cons w ws ih =>
    obtain ⟨hw, hws⟩ := List.forall_mem_cons.mp hws
    rw [List.flatMap_cons, List.append_assoc, List.cons_append,
      seekValue_word hw.1 hw.2 (endsWord_words hrest), ih hws]
    rfl

theorem seekValue_nil (name : List Byte) : seekValue [] name = (name, []) := by
  rw [seekValue]
  rfl

theorem seekValue_value (v name : List Byte) :
    seekValue (bytes " value " ++ v) name = (name, (' ' : Byte) :: v) := by
  have hrest : EndsWord (' ' :: v) := by
    intro c hc
    cases hc
    decide
  have hv : bytes " value " ++ v = (' ' : Byte) :: (bytes "value" ++ (' ' : Byte) :: v) := by simp [bytes]
  rw [hv, seekValue, extract_space, extract_word nameWords_setoption.2.2.1 hrest]
  dsimp only
  rw [if_pos rfl]

theorem readWords_words (hws : ∀ w ∈ ws, NameWord w) (value : List Byte) :
    readWords (ws.flatMap fun w => (' ' : Byte) :: w) value = ws.foldl addToken value := by
  induction ws generalizing value with
  | nil =>
    rw [List.flatMap_nil, readWords]
    rfl
  | cons w ws ih =>
    obtain ⟨hw, hws⟩ := List.forall_mem_cons.mp hws
    have hrest : EndsWord (ws.flatMap fun w => (' ' : Byte) :: w) := by
      have hnil : EndsWord ((ws.flatMap fun w => (' ' : Byte) :: w) ++ []) := endsWord_words nofun
      rwa [List.append_nil] at hnil
    rw [List.flatMap_cons, List.cons_append, readWords_word hw hrest, ih hws]
    rfl

/-- The line that names an option. -/
def setOptionLine (key : List Byte) : List Byte := bytes "setoption name " ++ uciOptionNameEscape key

theorem endsWord_space (s : List Byte) : EndsWord ((' ' : Byte) :: s) := by
  intro c hc
  cases hc
  decide

theorem foldl_words (hw : w ≠ []) : (w :: ws).foldl addToken [] = join w ws := by
  have hfirst : addToken [] w = w := rfl
  have hfold : ws.foldl (fun result token => addToken result (id token)) w = join w (ws.map id) :=
    foldl_addToken hw
  rw [List.map_id] at hfold
  rw [List.foldl_cons, hfirst]
  exact hfold

theorem readOptionName_line {key tail : List Byte} (h : isOptionNameValid key = true)
    (hrest : EndsWord rest) (hseek : ∀ name, seekValue rest name = (name, tail)) : ∃ tokens,
    scanCommandWord (setOptionLine key ++ rest) = some (.setoption, tokens) ∧
      readOptionName tokens = some (key, tail) := by
  obtain ⟨w, ws, hs, he, hws⟩ := exists_escaped h
  obtain ⟨hset, hname, -, hcommand⟩ := nameWords_setoption
  have hline : setOptionLine key ++ rest = bytes "setoption" ++ (' ' : Byte) :: (bytes "name" ++
      (((escapeToken w :: ws.map escapeToken).flatMap fun w => (' ' : Byte) :: w) ++ rest)) := by
    rw [setOptionLine, uciOptionNameEscape, he, join]
    simp [bytes]
  refine ⟨(' ' : Byte) :: (bytes "name" ++
    (((escapeToken w :: ws.map escapeToken).flatMap fun w => (' ' : Byte) :: w) ++ rest)), ?_, ?_⟩
  · rw [hline, scanCommandWord, extract_word hset (endsWord_space _)]
    dsimp only
    rw [hcommand]
  · rw [readOptionName, extract_space, extract_word hname (endsWord_words hrest)]
    dsimp only
    rw [if_neg (not_not.mpr rfl), seekValue_words (fun w' hw' => ⟨(hws w' hw').1, (hws w' hw').2.2.1⟩)
      hrest, hseek, foldl_words (hws _ List.mem_cons_self).1.nonempty, ← he, uciOptionNameUnescape,
      uciNameUnescape_escape h]

theorem tokensOf_escape {key : List Byte} (h : isOptionNameValid key = true) :
    ∀ t ∈ tokensOf isSpace (uciNameEscape key),
      t ≠ bytes "name" ∧ t ≠ bytes "value" ∧ t ≠ bytes "val" := by
  obtain ⟨w, ws, hs, he, hws⟩ := exists_escaped h
  obtain ⟨hw, hws'⟩ := List.forall_mem_cons.mp fun w' hw' => (hws w' hw').1.word
  rw [he, join, tokensOf_words hw hws']
  exact fun t ht => (hws t ht).2

theorem readWords_item {item : List Byte} (h : isOptionNameValid item = true) :
    uciEnumNameUnescape (readWords ((' ' : Byte) :: uciEnumNameEscape item) []) = item := by
  obtain ⟨w, ws, hs, he, hws⟩ := exists_escaped h
  have hline : (' ' : Byte) :: uciEnumNameEscape item =
      (escapeToken w :: ws.map escapeToken).flatMap fun w => (' ' : Byte) :: w := by
    rw [uciEnumNameEscape, he, join]
    rfl
  rw [hline, readWords_words fun w' hw' => (hws w' hw').1,
    foldl_words (hws _ List.mem_cons_self).1.nonempty, ← he, uciEnumNameUnescape,
    uciNameUnescape_escape h]

end Stream

section Protocol

variable {opts : OptionStorage} {key : List Byte} {value : OptValue}

/-- `processUciCommand` on a line that starts with `setoption`. -/
def processLine (opts : OptionStorage) (line : List Byte) : Option (PollResult × OptionStorage) :=
  match scanCommandWord line with
  | some (.setoption, tokens) => some (processUciSetOption opts tokens)
  | _ => none

/-- Option names and the items of enumerations survive the text protocol. -/
theorem setOption_roundtrip (h : Built opts) (hkey : opts.values key = some value) :
    (∃ tokens, scanCommandWord (setOptionLine key) = some (.setoption, tokens) ∧
      readOptionName tokens = some (key, [])) ∧
    (∀ v, ∃ tokens, scanCommandWord (setOptionLine key ++ (bytes " value " ++ v)) =
      some (.setoption, tokens) ∧ readOptionName tokens = some (key, (' ' : Byte) :: v)) ∧
    (∀ key' value', opts.values key' = some value' →
      uciOptionNameEscape key = uciOptionNameEscape key' → key = key') ∧
    (∀ t ∈ tokensOf isSpace (uciOptionNameEscape key),
      t ≠ bytes "name" ∧ t ≠ bytes "value" ∧ t ≠ bytes "val") ∧
    ∀ items index, value = .enum items index → ∀ i item, items[i]? = some item →
      processLine opts (setOptionLine key ++ (bytes " value " ++ uciEnumNameEscape item)) =
        some (.ok, (opts.setEnum key i).2) ∧
      ((∀ observer ∈ opts.observer, observer.setEnum key i = .ok) →
        (opts.setEnum key i).2.values key = some (.enum items i)) := by
  have hchecked := checked_of_built h
  have hname := (hchecked key value hkey).1
  have hend : EndsWord [] := nofun
  have hvalue := readOptionName_line hname hend seekValue_nil
  rw [List.append_nil] at hvalue
  have hv : ∀ v, EndsWord (bytes " value " ++ v) := fun v => endsWord_space _
  refine ⟨hvalue, fun v => readOptionName_line hname (hv v) (seekValue_value v), ?_,
    tokensOf_escape hname, ?_⟩
  · intro key' value' hkey' he
    rw [← uciNameUnescape_escape hname, ← uciNameUnescape_escape (hchecked key' value' hkey').1]
    exact congrArg uciNameUnescape he
  · intro items index henum i item hi
    rw [henum] at hkey
    have hitem := (hchecked key _ hkey).2.1 item (List.mem_of_getElem? hi)
    obtain ⟨tokens, hscan, hread⟩ := readOptionName_line hname (hv (uciEnumNameEscape item))
      (seekValue_value _)
    constructor
    · have htype : opts.type key = some .enum := by rw [OptionStorage.type, hkey]; rfl
      rw [processLine, hscan]
      dsimp only
      rw [processUciSetOption, hread]
      dsimp only
      rw [htype]
      dsimp only [setValue]
      rw [readWords_item hitem, setEnumItem_eq hchecked hkey hi]
    · intro hobserver
      rw [OptionStorage.setEnum, hkey]
      dsimp only
      rw [if_pos (List.getElem?_eq_some_iff.mp hi).1, OptionStorage.observed]
      split
      · exact Function.update_self ..
      · rename_i observer ho
        rw [if_neg (not_not.mpr (hobserver observer ho))]
        exact Function.update_self ..

/-- A storage with one option. -/
def oneOption : OptionStorage :=
  OptionStorage.assign ⟨none, fun _ => none⟩ (bytes "value name") (.enum [bytes "val"] 0)

theorem built_oneOption : Built oneOption := by
  have hnames : isOptionNameValid (bytes "value name") = true ∧
      isOptionNameValid (bytes "val") = true := by decide +kernel
  have hrep : hasRepetitions [bytes "val"] = false := by simp [hasRepetitions]
  have hadd : OptionStorage.addEnum ⟨none, fun _ => none⟩ (bytes "value name") [bytes "val"] 0 =
      some oneOption := by
    rw [OptionStorage.addEnum, if_neg (by decide), if_neg (by simp [hnames.2]), hrep,
      if_neg Bool.false_ne_true, OptionStorage.addT, hnames.1]
    rfl
  exact .addEnum (.new none) hadd

theorem setOption_roundtrip_one :
    (∃ tokens, scanCommandWord (setOptionLine (bytes "value name")) = some (.setoption, tokens) ∧
      readOptionName tokens = some (bytes "value name", [])) ∧
    (∀ v, ∃ tokens, scanCommandWord (setOptionLine (bytes "value name") ++ (bytes " value " ++ v)) =
      some (.setoption, tokens) ∧
      readOptionName tokens = some (bytes "value name", (' ' : Byte) :: v)) ∧
    (∀ key' value', oneOption.values key' = some value' →
      uciOptionNameEscape (bytes "value name") = uciOptionNameEscape key' →
      bytes "value name" = key') ∧
    (∀ t ∈ tokensOf isSpace (uciOptionNameEscape (bytes "value name")),
      t ≠ bytes "name" ∧ t ≠ bytes "value" ∧ t ≠ bytes "val") ∧
    ∀ items index, OptValue.enum [bytes "val"] 0 = .enum items index →
      ∀ i item, items[i]? = some item →
      processLine oneOption (setOptionLine (bytes "value name") ++
        (bytes " value " ++ uciEnumNameEscape item)) =
          some (.ok, (oneOption.setEnum (bytes "value name") i).2) ∧
      ((∀ observer ∈ oneOption.observer, observer.setEnum (bytes "value name") i = .ok) →
        (oneOption.setEnum (bytes "value name") i).2.values (bytes "value name") =
          some (.enum items i)) := by
  have hkey : oneOption.values (bytes "value name") = some (.enum [bytes "val"] 0) := by
    rw [oneOption, OptionStorage.assign]
    dsimp only
    rw [Function.update_self]
  exact setOption_roundtrip built_oneOption hkey

end Protocol

end SoFCheck.BotApi.UciOptions
