import SoFCheck.Util.Strutil
import SoFCheck.Core.Types

namespace SoFCheck.BotApi.UciGo

open SoFCheck.Util.CString SoFCheck.Util.Strutil SoFCheck.Core.Types

/-- The largest value of `int64_t`, and so `milliseconds::max()`. -/
def int64Max : Int := 2 ^ 63 - 1

def movesInfinite : Nat := 2 ^ 32 - 1

/-- The time left on the clock, in milliseconds, and what is added after each move. -/
structure TimeControlSide where
  time : Int
  inc : Int
  deriving DecidableEq

structure TimeControl where
  white : TimeControlSide
  black : TimeControlSide
  movesToGo : Nat
  deriving DecidableEq

namespace TimeControl

/-- The default constructor. -/
def unset : TimeControl := ⟨⟨int64Max, 0⟩, ⟨int64Max, 0⟩, movesInfinite⟩

def ofSide (tc : TimeControl) : Color → TimeControlSide
  | .white => tc.white
  | .black => tc.black

end TimeControl

/-- The searches that `processUciGo` may start. -/
inductive Request where
  | fixedDepth (depth : Nat)
  | fixedNodes (nodes : Nat)
  | fixedTime (time : Int)
  | infinite
  | timeControl (tc : TimeControl)
  deriving DecidableEq

def subcommands : List (List Byte) :=
  [bytes "searchmoves", bytes "ponder", bytes "wtime", bytes "btime", bytes "winc", bytes "binc",
    bytes "movestogo", bytes "depth", bytes "nodes", bytes "mate", bytes "movetime",
    bytes "infinite"]

def maxAllowedTimeMsec : Nat := 2000000000000

def tryReadMsec (token : List Byte) : Option Int :=
  match valueFromStr (2 ^ 64 - 1) token with
  | none => none
  | some val => if val > maxAllowedTimeMsec then none else some val

/-- The subcommands that change the time control, given the token after them. -/
def setParameter (tc : TimeControl) (subcommand token : List Byte) : Option TimeControl :=
  if subcommand = bytes "wtime" then
    (tryReadMsec token).map fun time => { tc with white := { tc.white with time := time } }
  else if subcommand = bytes "btime" then
    (tryReadMsec token).map fun time => { tc with black := { tc.black with time := time } }
  else if subcommand = bytes "winc" then
    (tryReadMsec token).map fun inc => { tc with white := { tc.white with inc := inc } }
  else if subcommand = bytes "binc" then
    (tryReadMsec token).map fun inc => { tc with black := { tc.black with inc := inc } }
  else
    (valueFromStr (2 ^ 32 - 1) token).map fun moves =>
      { tc with movesToGo := if moves = 0 then movesInfinite else moves }

def isParameter (token : List Byte) : Bool :=
  token ∈ [bytes "wtime", bytes "btime", bytes "winc", bytes "binc", bytes "movestogo"]

/-- The subcommands that choose the search at once, given the token after them. -/
def searchBy (subcommand token : List Byte) : Option Request :=
  if subcommand = bytes "depth" then (valueFromStr (2 ^ 64 - 1) token).map Request.fixedDepth
  else if subcommand = bytes "nodes" then (valueFromStr (2 ^ 64 - 1) token).map Request.fixedNodes
  else (tryReadMsec token).map Request.fixedTime

def isSearchBy (token : List Byte) : Bool :=
  token ∈ [bytes "depth", bytes "nodes", bytes "movetime"]

/-- The end of the line. -/
def finish (hasTimeControl : Bool) (tc : TimeControl) : Request :=
  if hasTimeControl then .timeControl tc else .infinite

/-- The loop over the tokens; `skipping` holds between `searchmoves` and the next subcommand. -/
def scanGo : (tokens : List (List Byte)) → (skipping hasTimeControl : Bool) → TimeControl → Request
  | [], _, hasTimeControl, tc => finish hasTimeControl tc
  | token :: tokens, skipping, hasTimeControl, tc =>
    if skipping && decide (token ∉ subcommands) then scanGo tokens true hasTimeControl tc
    else if token = bytes "searchmoves" then scanGo tokens (!skipping) hasTimeControl tc
    else if token = bytes "infinite" then .infinite
    else match tokens with
      | [] => finish hasTimeControl tc
      | value :: rest =>
        if isParameter token then
          match setParameter tc token value with
          | some tc' => scanGo rest false true tc'
          | none => scanGo rest false hasTimeControl tc
        else if isSearchBy token then
          match searchBy token value with
          | some request => request
          | none => scanGo rest false hasTimeControl tc
        else if token = bytes "mate" then scanGo rest false hasTimeControl tc
        else scanGo (value :: rest) false hasTimeControl tc

def processUciGo (searchStarted : Bool) (tokens : List (List Byte)) : Option Request :=
  if searchStarted then none else some (scanGo tokens false false TimeControl.unset)

section Allowed

/-- The clocks that the engine may be given. -/
structure TimeControlSide.Allowed (side : TimeControlSide) : Prop where
  time : side.time = int64Max ∨ 0 ≤ side.time ∧ side.time ≤ maxAllowedTimeMsec
  inc : 0 ≤ side.inc ∧ side.inc ≤ maxAllowedTimeMsec

structure TimeControl.Allowed (tc : TimeControl) : Prop where
  white : tc.white.Allowed
  black : tc.black.Allowed
  movesToGo : 0 < tc.movesToGo ∧ tc.movesToGo ≤ movesInfinite

theorem TimeControl.Allowed.ofSide {tc : TimeControl} (h : tc.Allowed) (c : Color) :
    (tc.ofSide c).Allowed := by
  cases c with
  | white => exact h.white
  | black => exact h.black

theorem TimeControl.allowed_unset : TimeControl.unset.Allowed :=
  have hside : TimeControlSide.Allowed ⟨int64Max, 0⟩ := ⟨Or.inl rfl, by decide⟩
  ⟨hside, hside, by decide⟩

theorem tryReadMsec_bounds {token : List Byte} {time : Int} (h : tryReadMsec token = some time) :
    0 ≤ time ∧ time ≤ maxAllowedTimeMsec := by
  rw [tryReadMsec] at h
  split at h
  · cases h
  · split at h
    · cases h
    · cases h
      omega

theorem allowed_setParameter {tc tc' : TimeControl} (h : tc.Allowed) {subcommand token : List Byte}
    (hset : setParameter tc subcommand token = some tc') : tc'.Allowed := by
  unfold setParameter at hset
  split_ifs at hset <;> obtain ⟨value, hvalue, rfl⟩ := Option.map_eq_some_iff.1 hset
  · exact ⟨⟨Or.inr (tryReadMsec_bounds hvalue), h.white.inc⟩, h.black, h.movesToGo⟩
  · exact ⟨h.white, ⟨Or.inr (tryReadMsec_bounds hvalue), h.black.inc⟩, h.movesToGo⟩
  · exact ⟨⟨h.white.time, tryReadMsec_bounds hvalue⟩, h.black, h.movesToGo⟩
  · exact ⟨h.white, ⟨h.black.time, tryReadMsec_bounds hvalue⟩, h.movesToGo⟩
  · obtain ⟨_, _, hle, rfl⟩ := valueFromStr_eq_some.1 hvalue
    refine ⟨h.white, h.black, ?_⟩
    dsimp only
    split
    · decide
    · exact ⟨Nat.pos_of_ne_zero (by assumption), hle⟩

theorem finish_eq {hasTimeControl : Bool} {tc tc' : TimeControl}
    (h : finish hasTimeControl tc = .timeControl tc') : tc' = tc := by
  cases hasTimeControl with
  | false => cases h
  | true =>
    cases h
    rfl

theorem searchBy_ne {subcommand token : List Byte} {request : Request}
    (h : searchBy subcommand token = some request) (tc : TimeControl) :
    request ≠ .timeControl tc := by
  unfold searchBy at h
  split_ifs at h <;> obtain ⟨value, _, rfl⟩ := Option.map_eq_some_iff.1 h <;> intro heq <;>
    cases heq

theorem allowed_of_scanGo (tokens : List (List Byte)) (skipping hasTimeControl : Bool)
    {tc tc' : TimeControl} (htc : tc.Allowed)
    (h : scanGo tokens skipping hasTimeControl tc = .timeControl tc') : tc'.Allowed := by
  fun_induction scanGo tokens skipping hasTimeControl tc with
  | case1 => exact finish_eq h ▸ htc
  | case2 _ _ _ _ _ _ ih => exact ih htc h
  | case3 _ _ _ _ _ ih => exact ih htc h
  | case4 => cases h
  | case5 => exact finish_eq h ▸ htc
  | case6 _ _ _ _ _ _ _ _ _ _ _ hset ih => exact ih (allowed_setParameter htc hset) h
  | case7 _ _ _ _ _ _ _ _ _ _ _ ih => exact ih htc h
  | case8 _ _ _ _ _ _ _ _ _ _ _ _ hsearch => exact absurd h (searchBy_ne hsearch tc')
  | case9 _ _ _ _ _ _ _ _ _ _ _ _ ih => exact ih htc h
  | case10 _ _ _ _ _ _ _ _ _ _ ih => exact ih htc h
  | case11 _ _ _ _ _ _ _ _ _ _ _ _ ih => exact ih htc h

theorem allowed_of_processUciGo {searchStarted : Bool} {tokens : List (List Byte)} {tc : TimeControl}
    (h : processUciGo searchStarted tokens = some (.timeControl tc)) : tc.Allowed := by
  unfold processUciGo at h
  split at h
  · cases h
  · exact allowed_of_scanGo tokens false false TimeControl.allowed_unset (Option.some.inj h)

end Allowed

end SoFCheck.BotApi.UciGo
