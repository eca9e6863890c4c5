import SoFCheck.Util.CString

namespace SoFCheck.Util.WordWrap

open SoFCheck.Util.CString

/-- A `std::string_view` of a string, given by its place. -/
structure View where
  start : Nat
  size : Nat
  deriving DecidableEq

def View.text (s : List Byte) (v : View) : List Byte := (s.drop v.start).take v.size

/-- The view of a substring as one of the whole string. -/
def View.shift (base : Nat) (v : View) : View := ⟨base + v.start, v.size⟩

section Model

/-- A loop that moves a position forward. -/
def scanWhile (cond : Nat → Bool) : (turns pos : Nat) → Nat
  | 0, pos => pos
  | turns + 1, pos => if cond pos then scanWhile cond turns (pos + 1) else pos

/-- The loop that trims a line on the right. -/
def trimRight (line : List Byte) : Nat → Nat
  | 0 => 0
  | pos + 1 => if line.getD pos 0 == (' ' : Byte) then trimRight line pos else pos + 1

def skipSpaces (line : List Byte) (pos : Nat) : Nat :=
  scanWhile (fun p => decide (p < line.length) && line.getD p 0 == (' ' : Byte)) line.length pos

def scanWord (line : List Byte) (width lineStartPos pos : Nat) : Nat :=
  scanWhile (fun p => decide (p < line.length) && decide (p - lineStartPos ≤ width) &&
    line.getD p 0 != (' ' : Byte)) line.length pos

/-- The main loop of `processLine`, for at most so many turns. -/
def wrapLoop (line : List Byte) (width : Nat) :
    (turns lineStartPos lineEndPos : Nat) → (isFirstWord : Bool) → List View → Option (List View)
  | 0, _, _, _, _ => none
  | turns + 1, lineStartPos, lineEndPos, isFirstWord, result =>
    if lineStartPos < line.length then
      let wordStartPos := skipSpaces line lineEndPos
      if wordStartPos = line.length ∨ wordStartPos - lineStartPos ≥ width then
        wrapLoop line width turns wordStartPos wordStartPos true
          (result ++ [⟨lineStartPos, lineEndPos - lineStartPos⟩])
      else
        let wordEndPos := scanWord line width lineStartPos wordStartPos
        if wordEndPos - lineStartPos > width then
          if isFirstWord then
            wrapLoop line width turns (lineStartPos + width) (lineStartPos + width) true
              (result ++ [⟨lineStartPos, width⟩])
          else
            wrapLoop line width turns wordStartPos wordStartPos true
              (result ++ [⟨lineStartPos, lineEndPos - lineStartPos⟩])
        else wrapLoop line width turns lineStartPos wordEndPos false result
    else some result

def processLine (turns width : Nat) (line : List Byte) : Option (List View) :=
  let line := line.take (trimRight line line.length)
  if line.isEmpty then some [⟨0, 0⟩]
  else
    let leftSpacePos := skipSpaces line 0
    let lineStartPos := if leftSpacePos ≥ width then leftSpacePos else 0
    wrapLoop line width turns lineStartPos lineStartPos true []

/-- The loop over the lines of `wordWrap`. -/
def linesLoop (lineTurns width : Nat) (s : List Byte) : (turns right : Nat) → List View →
    Option (List View)
  | 0, _, _ => none
  | turns + 1, right, result =>
    if right < s.length then
      let left := right
      let right := scanWhile (fun p => decide (p < s.length) && s.getD p 0 != ('\n' : Byte))
        s.length left
      (processLine lineTurns width ((s.drop left).take (right - left))).bind fun pieces =>
        linesLoop lineTurns width s turns (if right < s.length then right + 1 else right)
          (result ++ pieces.map (View.shift left))
    else some result

/-- Every loop is given so many turns. -/
def wordWrap (turns : Nat) (s : List Byte) (width : Nat) : Option (List View) :=
  if s.isEmpty then some [⟨0, 0⟩] else linesLoop turns width s turns 0 []

end Model

/-- What is left of a text without spaces and newlines. -/
def visible (s : List Byte) : List Byte := s.filter fun c => c != (' ' : Byte) && c != ('\n' : Byte)

/-- Views from `lo` to `hi` in increasing order, none of which overlap. -/
def Within (hi : Nat) : (lo : Nat) → List View → Prop
  | lo, [] => lo ≤ hi
  | lo, v :: views => lo ≤ v.start ∧ Within hi (v.start + v.size) views

section Scan

variable {cond : Nat → Bool} {line : List Byte}

theorem scanWhile_spec (cond : Nat → Bool) (turns pos : Nat) :
    pos ≤ scanWhile cond turns pos ∧
      (∀ i, pos ≤ i → i < scanWhile cond turns pos → cond i = true) ∧
      (scanWhile cond turns pos < pos + turns → cond (scanWhile cond turns pos) = false) := by
  induction turns generalizing pos with
  | zero =>
    refine ⟨Nat.le_refl pos, fun i hi hlt => ?_, fun h => absurd h (Nat.lt_irrefl pos)⟩
    exact absurd hlt (Nat.not_lt.mpr hi)
  | succ turns ih =>
    rw [scanWhile]
    split
    · rename_i hcond
      obtain ⟨hle, hall, hstop⟩ := ih (pos + 1)
      refine ⟨by omega, fun i hi hlt => ?_, fun h => hstop (by omega)⟩
      rcases Nat.eq_or_lt_of_le hi with rfl | hi
      · exact hcond
      · exact hall i hi hlt
    · rename_i hcond
      refine ⟨Nat.le_refl pos, fun i hi hlt => absurd hlt (Nat.not_lt.mpr hi), fun _ => ?_⟩
      exact Bool.eq_false_iff.mpr hcond

theorem scanWhile_stop (cond : Nat → Bool) {n pos : Nat} (hcond : ∀ i, n ≤ i → cond i = false) (hpos : pos ≤ n) :
    scanWhile cond n pos ≤ n ∧ cond (scanWhile cond n pos) = false := by
  obtain ⟨hle, hall, hstop⟩ := scanWhile_spec cond n pos
  have hlen : scanWhile cond n pos ≤ n := by
    by_contra hlt
    have htrue := hall n hpos (by omega)
    rw [hcond n (Nat.le_refl n)] at htrue
    cases htrue
  refine ⟨hlen, ?_⟩
  by_cases hlt : scanWhile cond n pos < pos + n
  · exact hstop hlt
  · exact hcond _ (by omega)

theorem skipSpaces_spec {pos : Nat} (hpos : pos ≤ line.length) :
    pos ≤ skipSpaces line pos ∧ skipSpaces line pos ≤ line.length ∧
      (∀ i, pos ≤ i → i < skipSpaces line pos → line.getD i 0 = (' ' : Byte)) ∧
      (skipSpaces line pos < line.length → line.getD (skipSpaces line pos) 0 ≠ (' ' : Byte)) := by
  obtain ⟨hle, hall, -⟩ := scanWhile_spec
    (fun p => decide (p < line.length) && line.getD p 0 == (' ' : Byte)) line.length pos
  obtain ⟨hlen, hstop⟩ := scanWhile_stop
    (fun p => decide (p < line.length) && line.getD p 0 == (' ' : Byte))
    (fun i hi => by simp [Nat.not_lt.mpr hi]) hpos
  refine ⟨hle, hlen, fun i hi hlt => ?_, fun hlt hspace => ?_⟩
  · have := hall i hi hlt
    simp only [Bool.and_eq_true, beq_iff_eq] at this
    exact this.2
  · rw [skipSpaces] at hlt hspace
    rw [hspace, decide_eq_true hlt] at hstop
    exact absurd hstop (by decide)

theorem scanWord_spec {width lineStartPos pos : Nat} (hpos : pos < line.length)
    (hwidth : pos - lineStartPos < width) (hword : line.getD pos 0 ≠ (' ' : Byte)) :
    pos < scanWord line width lineStartPos pos ∧
      scanWord line width lineStartPos pos ≤ line.length ∧
      scanWord line width lineStartPos pos - lineStartPos ≤ width + 1 := by
  set cond := fun p => decide (p < line.length) && decide (p - lineStartPos ≤ width) &&
    line.getD p 0 != (' ' : Byte) with hcond
  obtain ⟨hle, hall, -⟩ := scanWhile_spec cond line.length pos
  obtain ⟨hlen, hstop⟩ := scanWhile_stop cond
    (fun i hi => by simp [hcond, Nat.not_lt.mpr hi]) (Nat.le_of_lt hpos)
  have hfirst : cond pos = true := by
    simp only [hcond, Bool.and_eq_true, decide_eq_true_eq, bne_iff_ne]
    exact ⟨⟨hpos, by omega⟩, hword⟩
  have hne : scanWhile cond line.length pos ≠ pos := by
    intro he
    rw [he, hfirst] at hstop
    cases hstop
  have hbound : ∀ i, cond i = true → i - lineStartPos ≤ width := by
    intro i hi
    simp only [hcond, Bool.and_eq_true, decide_eq_true_eq] at hi
    exact hi.1.2
  have hlast := hbound _ (hall (scanWhile cond line.length pos - 1) (by omega) (by omega))
  have hscan : scanWord line width lineStartPos pos = scanWhile cond line.length pos := rfl
  rw [hscan]
  exact ⟨by omega, hlen, by omega⟩

theorem trimRight_spec (line : List Byte) (pos : Nat) :
    trimRight line pos ≤ pos ∧
      ∀ i, trimRight line pos ≤ i → i < pos → line.getD i 0 = (' ' : Byte) := by
  induction pos with
  | zero => exact ⟨Nat.le_refl 0, fun i _ hi => absurd hi (Nat.not_lt_zero i)⟩
  | succ pos ih =>
    rw [trimRight]
    split
    · rename_i hspace
      refine ⟨ih.1.trans (Nat.le_succ pos), fun i hi hlt => ?_⟩
      rcases Nat.eq_or_lt_of_le (Nat.le_of_lt_succ hlt) with rfl | hlt
      · exact eq_of_beq hspace
      · exact ih.2 i hi hlt
    · exact ⟨Nat.le_refl _, fun i hi hlt => absurd hlt (Nat.not_lt.mpr hi)⟩

end Scan

section Views

variable {hi mid lo : Nat} {views views' : List View} {s : List Byte}

theorem within_append (h : Within mid lo views) (h' : Within hi mid views') :
    Within hi lo (views ++ views') := by
  induction views generalizing lo with
  | nil =>
    cases views' with
    | nil => exact Nat.le_trans h h'
    | cons v views' => exact ⟨Nat.le_trans h h'.1, h'.2⟩
  | cons v views ih => exact ⟨h.1, ih h.2⟩

theorem within_mono {hi' : Nat} (h : Within hi lo views) (hle : hi ≤ hi') : Within hi' lo views := by
  induction views generalizing lo with
  | nil => exact Nat.le_trans h hle
  | cons v views ih => exact ⟨h.1, ih h.2⟩

theorem within_shift {base : Nat} (h : Within hi lo views) :
    Within (base + hi) (base + lo) (views.map (View.shift base)) := by
  induction views generalizing lo with
  | nil => exact Nat.add_le_add_left h base
  | cons v views ih =>
    refine ⟨Nat.add_le_add_left h.1 base, ?_⟩
    have hend : (View.shift base v).start + (View.shift base v).size = base + (v.start + v.size) :=
      Nat.add_assoc base v.start v.size
    rw [hend]
    exact ih h.2

theorem le_of_within (h : Within hi lo views) : lo ≤ hi := by
  induction views generalizing lo with
  | nil => exact h
  | cons v views ih => exact h.1.trans ((Nat.le_add_right _ _).trans (ih h.2))

theorem end_le_of_within (h : Within hi lo views) {v : View} (hv : v ∈ views) :
    v.start + v.size ≤ hi := by
  induction views generalizing lo with
  | nil => exact absurd hv List.not_mem_nil
  | cons w views ih =>
    cases List.mem_cons.mp hv with
    | inl he => exact he ▸ le_of_within h.2
    | inr hv => exact ih h.2 hv

theorem visible_append (s s' : List Byte) : visible (s ++ s') = visible s ++ visible s' :=
  List.filter_append s s'

theorem visible_slice {a b : Nat} (hb : b ≤ s.length)
    (h : ∀ i, a ≤ i → i < b → s.getD i 0 = (' ' : Byte) ∨ s.getD i 0 = ('\n' : Byte)) :
    visible ((s.drop a).take (b - a)) = [] := by
  apply List.filter_eq_nil_iff.mpr
  intro c hc
  obtain ⟨i, hi, rfl⟩ := List.mem_iff_getElem.mp hc
  rw [List.length_take, List.length_drop] at hi
  have hlt : a + i < s.length := by omega
  have hget := h (a + i) (by omega) (by omega)
  rw [List.getD_eq_getElem _ _ hlt] at hget
  rw [List.getElem_take, List.getElem_drop]
  cases hget with
  | inl he => rw [he]; decide
  | inr he => rw [he]; decide

theorem take_split {a b : Nat} (hab : a ≤ b) (s : List Byte) :
    s.take b = s.take a ++ (s.drop a).take (b - a) := by
  have h := List.take_add (l := s) (i := a) (j := b - a)
  rwa [Nat.add_sub_cancel' hab] at h

theorem text_shift {base n : Nat} {v : View} (hv : v.start + v.size ≤ n) :
    (v.shift base).text s = v.text ((s.drop base).take n) := by
  rw [View.text, View.text, View.shift, List.drop_take, List.take_take, List.drop_drop,
    min_eq_left (by omega)]

theorem flatMap_take {n : Nat} (h : Within n lo views) :
    views.flatMap (View.text (s.take n)) = views.flatMap (View.text s) := by
  apply List.flatMap_congr
  intro v hv
  have hend := end_le_of_within h hv
  rw [View.text, View.text, List.drop_take, List.take_take, min_eq_left (by omega)]

theorem flatMap_shift {base n : Nat} (h : Within n lo views) :
    (views.map (View.shift base)).flatMap (View.text s) =
      views.flatMap (View.text ((s.drop base).take n)) := by
  rw [List.flatMap_map]
  exact List.flatMap_congr fun v hv => text_shift (end_le_of_within h hv)

end Views

/-- Pieces of what comes before position `pos`. -/
structure Pieces (s : List Byte) (width pos : Nat) (views : List View) : Prop where
  within : Within pos 0 views
  size : ∀ v ∈ views, v.size ≤ width
  keeps : visible (views.flatMap (View.text s)) = visible (s.take pos)

section Lines

variable {line : List Byte} {width a e b : Nat} {views : List View}

theorem Pieces.push (h : Pieces line width a views) (hae : a ≤ e) (heb : e ≤ b)
    (hb : b ≤ line.length) (hsize : e - a ≤ width)
    (hskip : ∀ i, e ≤ i → i < b → line.getD i 0 = (' ' : Byte)) :
    Pieces line width b (views ++ [⟨a, e - a⟩]) where
  within := within_append h.within ⟨Nat.le_refl a, by
    dsimp only [Within]
    omega⟩
  size v hv := by
    cases List.mem_append.mp hv with
    | inl hv => exact h.size v hv
    | inr hv =>
      rw [List.mem_singleton.mp hv]
      exact hsize
  keeps := by
    have hbefore : line.take b = line.take a ++ (line.drop a).take (e - a) ++
        (line.drop e).take (b - e) := by
      rw [take_split heb line, take_split hae line]
    have hnew : [View.mk a (e - a)].flatMap (View.text line) = (line.drop a).take (e - a) :=
      List.append_nil _
    rw [List.flatMap_append, visible_append, h.keeps, hnew, hbefore, visible_append, visible_append,
      visible_slice hb fun i hi hlt => Or.inl (hskip i hi hlt), List.append_nil]

/-- Every turn of the loop moves one of the two positions. -/
theorem wrapLoop_spec (hwidth : 1 ≤ width) (turns : Nat) {a e : Nat} {isFirstWord : Bool}
    {result : List View} (hturns : line.length - a + (line.length - e) < turns) (hae : a ≤ e)
    (he : e ≤ line.length) (hsize : e - a ≤ width)
    (hfirst : if isFirstWord then e = a else a < e) (h : Pieces line width a result) :
    ∃ views, wrapLoop line width turns a e isFirstWord result = some views ∧
      Pieces line width line.length views := by
  induction turns generalizing a e isFirstWord result with
  | zero => omega
  | succ turns ih =>
    rw [wrapLoop]
    by_cases hlt : a < line.length
    · rw [if_pos hlt]
      dsimp only
      obtain ⟨hle, hlen, hspaces, hword⟩ := skipSpaces_spec he
      have hpush := h.push hae hle hlen hsize hspaces
      by_cases hdrop : skipSpaces line e = line.length ∨ skipSpaces line e - a ≥ width
      · rw [if_pos hdrop]
        exact ih (by omega) (Nat.le_refl _) hlen (by omega) rfl hpush
      · rw [if_neg hdrop]
        obtain ⟨hnext, hnextLen, hnextWidth⟩ :=
          @scanWord_spec line width a _ (by omega) (by omega) (hword (by omega))
        by_cases hlong : scanWord line width a (skipSpaces line e) - a > width
        · rw [if_pos hlong]
          cases isFirstWord with
          | true =>
            rw [if_pos rfl]
            have hea : e = a := hfirst
            have hcut := h.push (e := a + width) (b := a + width) (by omega) (Nat.le_refl _) (by omega)
              (by omega) fun i hi hi' => absurd hi' (Nat.not_lt.mpr hi)
            rw [Nat.add_sub_cancel_left] at hcut
            exact ih (by omega) (Nat.le_refl _) (by omega) (by omega) rfl hcut
          | false =>
            rw [if_neg Bool.false_ne_true]
            have hea : a < e := hfirst
            exact ih (by omega) (Nat.le_refl _) hlen (by omega) rfl hpush
        · rw [if_neg hlong]
          exact ih (by omega) (by omega) hnextLen (by omega) (show a < _ by omega) h
    · rw [if_neg hlt]
      have hend : a = line.length := by omega
      exact ⟨result, rfl, hend ▸ h⟩

theorem pieces_nil {a : Nat} (ha : a ≤ line.length)
    (hspaces : ∀ i, 0 ≤ i → i < a → line.getD i 0 = (' ' : Byte)) : Pieces line width a [] where
  within := Nat.zero_le a
  size _ hv := absurd hv List.not_mem_nil
  keeps := by
    have hslice := visible_slice ha fun i hi hlt => Or.inl (hspaces i hi hlt)
    rw [Nat.sub_zero, List.drop_zero] at hslice
    exact hslice.symm

theorem processLine_spec (hwidth : 1 ≤ width) {turns : Nat} (hturns : 2 * line.length < turns) :
    ∃ views, processLine turns width line = some views ∧ Pieces line width line.length views := by
  obtain ⟨hright, htail⟩ := trimRight_spec line line.length
  set right := trimRight line line.length with hrightEq
  have hlength : (line.take right).length = right := List.length_take_of_le hright
  -- what is trimmed away is not seen
  have hwhole : ∀ {views}, Pieces (line.take right) width (line.take right).length views →
      Pieces line width line.length views := by
    intro views hviews
    have hkeeps := hviews.keeps
    have hwithin := hviews.within
    rw [hlength] at hwithin
    rw [List.take_length, flatMap_take hwithin] at hkeeps
    refine ⟨within_mono hwithin hright, hviews.size, hkeeps.trans ?_⟩
    rw [take_split hright, visible_append,
      visible_slice (Nat.le_refl _) fun i hi hlt => Or.inl (htail i hi hlt), List.append_nil]
  rw [processLine]
  dsimp only
  rw [← hrightEq]
  by_cases hempty : (line.take right).isEmpty = true
  · rw [if_pos hempty]
    refine ⟨_, rfl, hwhole ⟨⟨Nat.le_refl 0, Nat.zero_le _⟩, fun v hv => ?_, ?_⟩⟩
    · rw [List.mem_singleton.mp hv]
      exact Nat.zero_le width
    · rw [List.isEmpty_iff.mp hempty]
      rfl
  · rw [if_neg hempty]
    obtain ⟨-, hlen, hspaces, -⟩ := @skipSpaces_spec (line.take right) 0 (Nat.zero_le _)
    have hloop : ∀ a ≤ skipSpaces (line.take right) 0, ∃ views,
        wrapLoop (line.take right) width turns a a true [] = some views ∧
          Pieces (line.take right) width (line.take right).length views := by
      intro a ha
      exact wrapLoop_spec hwidth turns (by omega) (Nat.le_refl a) (ha.trans hlen) (by omega) rfl
        (pieces_nil (ha.trans hlen) fun i hi hlt => hspaces i hi (hlt.trans_le ha))
    obtain ⟨views, hviews, hpieces⟩ := hloop
      (if skipSpaces (line.take right) 0 ≥ width then skipSpaces (line.take right) 0 else 0)
      (by split <;> omega)
    exact ⟨views, hviews, hwhole hpieces⟩

/-- The pieces of the next line. -/
theorem Pieces.addLine {s : List Byte} {a b c : Nat} {result : List View} (h : Pieces s width a result)
    (hab : a ≤ b) (hbc : b ≤ c) (hc : c ≤ s.length) (hnew : c ≤ b + 1)
    (hline : b < c → s.getD b 0 = ('\n' : Byte))
    (hviews : Pieces ((s.drop a).take (b - a)) width (b - a) views) :
    Pieces s width c (result ++ views.map (View.shift a)) where
  within := by
    have hshift : Within (a + (b - a)) (a + 0) (views.map (View.shift a)) :=
      within_shift hviews.within
    rw [Nat.add_sub_cancel' hab] at hshift
    exact within_append h.within (within_mono hshift hbc)
  size v hv := by
    cases List.mem_append.mp hv with
    | inl hv => exact h.size v hv
    | inr hv =>
      obtain ⟨w, hw, rfl⟩ := List.mem_map.mp hv
      exact hviews.size w hw
  keeps := by
    have hkeeps := hviews.keeps
    rw [List.take_take, min_self] at hkeeps
    have hend : visible ((s.drop b).take (c - b)) = [] := by
      apply visible_slice hc
      intro i hi hlt
      have hib : i = b := by omega
      subst hib
      exact Or.inr (hline hlt)
    have hbefore : s.take c = s.take a ++ (s.drop a).take (b - a) ++ (s.drop b).take (c - b) := by
      rw [take_split hbc s, take_split hab s]
    rw [List.flatMap_append, visible_append, h.keeps, flatMap_shift hviews.within, hkeeps, hbefore,
      visible_append, visible_append, hend, List.append_nil]

theorem linesLoop_spec (hwidth : 1 ≤ width) {s : List Byte} {lineTurns : Nat}
    (hlineTurns : 2 * s.length < lineTurns) (turns : Nat) {right : Nat} {result : List View}
    (hturns : s.length - right < turns) (hright : right ≤ s.length)
    (h : Pieces s width right result) :
    ∃ views, linesLoop lineTurns width s turns right result = some views ∧
      Pieces s width s.length views := by
  induction turns generalizing right result with
  | zero => omega
  | succ turns ih =>
    rw [linesLoop]
    by_cases hlt : right < s.length
    · rw [if_pos hlt]
      dsimp only
      set cond := fun p => decide (p < s.length) && s.getD p 0 != ('\n' : Byte) with hcond
      obtain ⟨hle, -⟩ := scanWhile_spec cond s.length right
      obtain ⟨hlen, hstop⟩ := scanWhile_stop cond (fun i hi => by
        simp [hcond, Nat.not_lt.mpr hi]) hright
      have hnewline : ∀ i < s.length, cond i = false → s.getD i 0 = ('\n' : Byte) := by
        intro i hi hfalse
        rw [hcond] at hfalse
        dsimp only at hfalse
        rw [decide_eq_true hi, Bool.true_and, bne_eq_false_iff_eq] at hfalse
        exact hfalse
      set stop := scanWhile cond s.length right with hstopEq
      have hlength : ((s.drop right).take (stop - right)).length = stop - right := by
        rw [List.length_take, List.length_drop]
        omega
      obtain ⟨pieces, hpieces, hline⟩ :=
        @processLine_spec ((s.drop right).take (stop - right)) width hwidth lineTurns (by omega)
      rw [hlength] at hline
      rw [hpieces, Option.bind_some]
      by_cases hmore : stop < s.length
      · rw [if_pos hmore]
        exact ih (by omega) (by omega)
          (h.addLine hle (Nat.le_succ stop) hmore (Nat.le_refl _) (fun _ => hnewline _ hmore hstop) hline)
      · rw [if_neg hmore]
        exact ih (by omega) hlen (h.addLine hle (Nat.le_refl stop) hlen (Nat.le_succ stop)
          (fun hlt => absurd hlt (Nat.lt_irrefl stop)) hline)
    · rw [if_neg hlt]
      have hend : right = s.length := by omega
      exact ⟨result, rfl, hend ▸ h⟩

end Lines

/-- Enough turns lead to pieces of the text, in order and without overlap, that are no wider
than asked for and leave nothing out but spaces and newlines. -/
theorem wordWrap_spec (s : List Byte) {width : Nat} (hwidth : 1 ≤ width) {turns : Nat}
    (hturns : 2 * s.length < turns) :
    ∃ views, wordWrap turns s width = some views ∧ Within s.length 0 views ∧
      (∀ v ∈ views, v.size ≤ width ∧ (v.text s).length = v.size) ∧
      visible (views.flatMap (View.text s)) = visible s := by
  suffices h : ∃ views, wordWrap turns s width = some views ∧ Pieces s width s.length views by
    obtain ⟨views, hviews, hpieces⟩ := h
    have hkeeps := hpieces.keeps
    rw [List.take_length] at hkeeps
    refine ⟨views, hviews, hpieces.within, fun v hv => ⟨hpieces.size v hv, ?_⟩, hkeeps⟩
    have hend := end_le_of_within hpieces.within hv
    rw [View.text, List.length_take, List.length_drop]
    omega
  rw [wordWrap]
  by_cases hempty : s.isEmpty = true
  · rw [if_pos hempty, List.isEmpty_iff.mp hempty]
    refine ⟨_, rfl, ⟨Nat.le_refl 0, Nat.le_refl 0⟩, fun v hv => ?_, rfl⟩
    rw [List.mem_singleton.mp hv]
    exact Nat.zero_le width
  · rw [if_neg hempty]
    exact linesLoop_spec hwidth hturns turns (by omega) (Nat.zero_le _)
      (pieces_nil (Nat.zero_le _) fun i _ hi => absurd hi (Nat.not_lt_zero i))

/-- A word that is too long for the line is cut, and the indent counts for its width. -/
def shorterStart : List Byte := "  shorter start".toList.map Char.toUInt8

theorem wordWrap_spec_shorterStart :
    ∃ views, wordWrap 31 shorterStart 7 = some views ∧ Within shorterStart.length 0 views ∧
      (∀ v ∈ views, v.size ≤ 7 ∧ (v.text shorterStart).length = v.size) ∧
      visible (views.flatMap (View.text shorterStart)) = visible shorterStart :=
  wordWrap_spec shorterStart (by decide) (by decide)

example : wordWrap 31 shorterStart 7 = some [⟨0, 7⟩, ⟨7, 2⟩, ⟨10, 5⟩] := by decide

end SoFCheck.Util.WordWrap
