import SoFCheck.Util.Slots

namespace SoFCheck.Eval.Feat

open SoFCheck.Util.Slots

/-- JSON values; a number keeps its value, whether it was written as an integer or as a real,
and the order of the members of an object does not matter. -/
inductive Json
  | null
  | bool (value : Bool)
  | number (value : Rat)
  | string (value : String)
  | array (items : List Json)
  | object (members : List (String × Json))

namespace Json

/-- An `Int` is a number without a fractional part that fits in 32 bits. -/
def isInt : Json → Bool
  | number value => decide (value.den = 1 ∧ Int32.minValue.toInt ≤ value.num ∧
      value.num ≤ Int32.maxValue.toInt)
  | _ => false

/-- Only used where `isInt` holds. -/
def asInt : Json → Int32
  | number value => Int32.ofInt value.num
  | _ => 0

def ofInt32 (value : Int32) : Json := number (value.toInt : Rat)

def isObject : Json → Bool
  | object _ => true
  | _ => false

def find (json : Json) (key : String) : Option Json :=
  match json with
  | object members => members.lookup key
  | _ => none

def setMember (members : List (String × Json)) (key : String) (value : Json) :
    List (String × Json) :=
  (key, value) :: members.filter fun member => member.1 != key

/-- `json.get("type", "") == name`. -/
def hasType (json : Json) (name : String) : Bool :=
  match json.find "type" with
  | some (string value) => value == name
  | some _ => false
  | none => "" == name

end Json

structure LoadError where
  description : String
  deriving DecidableEq

abbrev LoadResult (α : Type) := Except LoadError α

structure Name where
  offset : Nat
  name : String
  deriving DecidableEq

structure SingleBundle where
  name : Name
  value : Int32
  deriving DecidableEq

namespace SingleBundle

def load (name : Name) (json : Json) : LoadResult SingleBundle :=
  if json.isInt then .ok ⟨name, json.asInt⟩ else .error ⟨name.name ++ " must be int"⟩

def save (b : SingleBundle) : Json := Json.ofInt32 b.value

def apply (b : SingleBundle) (weights : List Int32) : Option SingleBundle :=
  weights[b.name.offset]?.map fun value => { b with value := value }

def extract (b : SingleBundle) (weights : List Int32) : Option (List Int32) :=
  write weights b.name.offset b.value

def names (b : SingleBundle) : List Name := [b.name]

def count (_ : SingleBundle) : Nat := 1

end SingleBundle

structure ArrayBundle where
  name : Name
  values : List Int32
  deriving DecidableEq

namespace ArrayBundle

/-- The loop over the items from `idx` on. -/
def loadItems (name : String) : (idx : Nat) → List Json → LoadResult (List Int32)
  | _, [] => .ok []
  | idx, item :: items =>
    if item.isInt then (loadItems name (idx + 1) items).map fun weights => item.asInt :: weights
    else .error ⟨name ++ "." ++ toString idx ++ " must be int"⟩

def load (name : Name) (json : Json) : LoadResult ArrayBundle :=
  match json with
  | .array items => (loadItems name.name 0 items).map fun weights => ⟨name, weights⟩
  | _ => .error ⟨name.name ++ " must be array"⟩

def save (b : ArrayBundle) : Json := .array (b.values.map Json.ofInt32)

def count (b : ArrayBundle) : Nat := b.values.length

def apply (b : ArrayBundle) (weights : List Int32) : Option ArrayBundle :=
  ((List.range b.values.length).mapM fun idx => weights[idx + b.name.offset]?).map
    fun values => { b with values := values }

def extract (b : ArrayBundle) (weights : List Int32) : Option (List Int32) :=
  b.values.zipIdx.foldlM (fun weights entry => write weights (entry.2 + b.name.offset) entry.1)
    weights

def names (b : ArrayBundle) : List Name :=
  (List.range b.values.length).map fun idx =>
    ⟨b.name.offset + idx, b.name.name ++ "." ++ toString idx⟩

end ArrayBundle

/-- The bundles made of arrays of fixed length. -/
inductive GroupKind
  | psq
  | kingPawn
  deriving DecidableEq

/-- The arrays of a bundle, with their lengths. -/
abbrev PsqBundle.iterate : List (String × Nat) :=
  [("cost", 6), ("pawn", 64), ("king", 64), ("knight", 64), ("bishop", 64), ("rook", 64),
    ("queen", 64), ("king_end", 64)]

abbrev KingPawnBundle.iterate : List (String × Nat) := [("shield", 6), ("storm", 6)]

namespace GroupKind

def typeName : GroupKind → String
  | psq => "psq"
  | kingPawn => "king_pawn"

def parts : GroupKind → List (String × Nat)
  | psq => PsqBundle.iterate
  | kingPawn => KingPawnBundle.iterate

end GroupKind

structure GroupBundle where
  name : Name
  subs : List ArrayBundle
  deriving DecidableEq

namespace GroupBundle

def loadFixedArray (name : Name) (json : Json) (subName : String) (len : Nat) :
    LoadResult ArrayBundle :=
  match json.find subName with
  | none => .error ⟨name.name ++ "." ++ subName ++ " doesn't exist"⟩
  | some value => do
    let sub ← ArrayBundle.load ⟨name.offset, name.name ++ "." ++ subName⟩ value
    if sub.count = len then .ok sub
    else .error ⟨name.name ++ "." ++ subName ++ " must contain " ++ toString len ++ " items"⟩

/-- Successive calls of one `SubBundleLoader`, which moves its offset forward. -/
def loadParts (json : Json) : Name → List (String × Nat) → LoadResult (List ArrayBundle)
  | _, [] => .ok []
  | name, part :: parts => do
    let sub ← loadFixedArray name json part.1 part.2
    let subs ← loadParts json { name with offset := name.offset + sub.count } parts
    .ok (sub :: subs)

def load (kind : GroupKind) (name : Name) (json : Json) : LoadResult GroupBundle :=
  if json.isObject && json.hasType kind.typeName then do
    let subs ← loadParts json name kind.parts
    .ok ⟨name, subs⟩
  else .error ⟨name.name ++ " must be object with type = " ++ kind.typeName⟩

def save (kind : GroupKind) (b : GroupBundle) : Json :=
  .object ((kind.parts.zip b.subs).foldl
    (fun members entry => Json.setMember members entry.1.1 entry.2.save)
    [("type", .string kind.typeName)])

def count (b : GroupBundle) : Nat := (b.subs.map ArrayBundle.count).sum

def apply (b : GroupBundle) (weights : List Int32) : Option GroupBundle :=
  (b.subs.mapM fun (sub : ArrayBundle) => sub.apply weights).map fun subs => { b with subs := subs }

def extract (b : GroupBundle) (weights : List Int32) : Option (List Int32) :=
  b.subs.foldlM (fun weights (sub : ArrayBundle) => sub.extract weights) weights

def names (b : GroupBundle) : List Name := b.subs.flatMap ArrayBundle.names

end GroupBundle

abbrev PsqBundle.load : Name → Json → LoadResult GroupBundle := GroupBundle.load .psq

abbrev PsqBundle.save : GroupBundle → Json := GroupBundle.save .psq

abbrev KingPawnBundle.load : Name → Json → LoadResult GroupBundle := GroupBundle.load .kingPawn

abbrev KingPawnBundle.save : GroupBundle → Json := GroupBundle.save .kingPawn

inductive Bundle
  | single (b : SingleBundle)
  | array (b : ArrayBundle)
  | group (kind : GroupKind) (b : GroupBundle)
  deriving DecidableEq

namespace Bundle

def load (name : Name) (json : Json) : LoadResult Bundle :=
  if json.isInt then (SingleBundle.load name json).map single
  else match json with
    | .array _ => (ArrayBundle.load name json).map array
    | .object _ =>
      if json.hasType "psq" then (PsqBundle.load name json).map (group .psq)
      else if json.hasType "king_pawn" then
        (KingPawnBundle.load name json).map (group .kingPawn)
      else .error ⟨name.name ++ " has unknown type"⟩
    | _ => .error ⟨name.name ++ " has unknown type"⟩

def save : Bundle → Json
  | single b => b.save
  | array b => b.save
  | group .psq b => PsqBundle.save b
  | group .kingPawn b => KingPawnBundle.save b

def apply (weights : List Int32) : Bundle → Option Bundle
  | single b => (b.apply weights).map single
  | array b => (b.apply weights).map array
  | group kind b => (b.apply weights).map (group kind)

def extract (weights : List Int32) : Bundle → Option (List Int32)
  | single b => b.extract weights
  | array b => b.extract weights
  | group _ b => b.extract weights

def names : Bundle → List Name
  | single b => b.names
  | array b => b.names
  | group _ b => b.names

def count : Bundle → Nat
  | single b => b.count
  | array b => b.count
  | group _ b => b.count

def name : Bundle → Name
  | single b => b.name
  | array b => b.name
  | group _ b => b.name

end Bundle

structure Features where
  bundles : List Bundle
  count : Nat
  deriving DecidableEq

namespace Features

/-- The loop over the items, from the keys seen so far and the first free offset. -/
def loadBundles : List Json → (added : List String) → (counter : Nat) →
    LoadResult (List Bundle × Nat)
  | [], _, counter => .ok ([], counter)
  | item :: items, added, counter =>
    match item with
    | .object [(key, value)] =>
      if key ∈ added then .error ⟨"Bundle " ++ key ++ " is present at least twice"⟩
      else do
        let bundle ← Bundle.load ⟨counter, key⟩ value
        let rest ← loadBundles items (key :: added) (counter + bundle.count)
        .ok (bundle :: rest.1, rest.2)
    -- The form is {"key": "value"}.
    | _ => .error ⟨"Each item of feature JSON must have the form \x7b\"key\": \"value\"\x7d"⟩

def load (json : Json) : LoadResult Features :=
  match json with
  | .array items => (loadBundles items [] 0).map fun loaded => ⟨loaded.1, loaded.2⟩
  | _ => .error ⟨"Feature JSON must be array"⟩

def save (f : Features) : Json :=
  .array (f.bundles.map fun bundle => .object [(bundle.name.name, bundle.save)])

/-- Fails on a vector of a wrong size. -/
def apply (f : Features) (weights : List Int32) : Option Features :=
  if weights.length = f.count then
    (f.bundles.mapM fun (bundle : Bundle) => bundle.apply weights).map fun bundles =>
      { f with bundles := bundles }
  else none

def extract (f : Features) : Option (List Int32) :=
  f.bundles.foldlM (fun weights (bundle : Bundle) => bundle.extract weights) (List.replicate f.count 0)

/-- Fails where an assertion does. -/
def names (f : Features) : Option (List Name) :=
  let result := f.bundles.flatMap Bundle.names
  if result.length = f.count ∧ result.zipIdx.all (fun entry => entry.1.offset == entry.2) then
    some result
  else none

end Features

section Places

def SingleBundle.slot : Slot SingleBundle Int32 where
  count := SingleBundle.count
  apply := SingleBundle.apply
  extract := SingleBundle.extract
  positions b := b.names.map Name.offset

def ArrayBundle.slot : Slot ArrayBundle Int32 where
  count := ArrayBundle.count
  apply := ArrayBundle.apply
  extract := ArrayBundle.extract
  positions b := b.names.map Name.offset

def Bundle.slot : Slot Bundle Int32 where
  count := Bundle.count
  apply b weights := b.apply weights
  extract b weights := b.extract weights
  positions b := b.names.map Name.offset

def SingleBundle.Stands (key : String) (offset : Nat) (b : SingleBundle) : Prop :=
  b.name = ⟨offset, key⟩

/-- An array stands under its name and its length. -/
def ArrayBundle.Stands (label : String × Nat) (offset : Nat) (b : ArrayBundle) : Prop :=
  b.name = ⟨offset, label.1⟩ ∧ b.values.length = label.2

/-- The labels of the arrays of a group. -/
def labels (key : String) (parts : List (String × Nat)) : List (String × Nat) :=
  parts.map fun part => (key ++ "." ++ part.1, part.2)

def Bundle.Stands (key : String) (offset : Nat) : Bundle → Prop
  | .single b => SingleBundle.Stands key offset b
  | .array b => b.name = ⟨offset, key⟩
  | .group kind b => b.name = ⟨offset, key⟩ ∧
      InLine ArrayBundle.slot ArrayBundle.Stands (labels key kind.parts) offset b.subs

def Bundle.read : Bundle → List Int32
  | .single b => [b.value]
  | .array b => b.values
  | .group _ b => b.subs.flatMap ArrayBundle.values

theorem SingleBundle.lawful :
    Lawful SingleBundle.slot SingleBundle.Stands (fun b => [b.value]) where
  length_read _ := rfl
  apply_slice := by
    intro key b before values after h hlen
    obtain ⟨value, rfl⟩ := List.length_eq_one_iff.1 hlen
    refine ⟨{ b with value := value }, ?_, h, rfl⟩
    have hvalue : (before ++ [value] ++ after)[b.name.offset]? = some value := by
      rw [h]
      simp
    change ((before ++ [value] ++ after)[b.name.offset]?).map _ = _
    rw [hvalue]
    rfl
  apply_read := by
    intro key b before after h
    have hvalue : (before ++ [b.value] ++ after)[b.name.offset]? = some b.value := by
      rw [h]
      simp
    change ((before ++ [b.value] ++ after)[b.name.offset]?).map _ = _
    rw [hvalue]
    rfl
  extract_slice := by
    intro key b before values after h hlen
    obtain ⟨value, rfl⟩ := List.length_eq_one_iff.1 hlen
    change write (before ++ [value] ++ after) b.name.offset b.value = _
    rw [h, List.append_assoc, List.singleton_append, write_append, List.append_assoc,
      List.singleton_append]
  positions_eq := by
    intro key b offset h
    change [b.name.offset] = [offset]
    rw [h]

theorem ArrayBundle.lawful :
    Lawful ArrayBundle.slot ArrayBundle.Stands ArrayBundle.values where
  length_read _ := rfl
  apply_slice := by
    intro label b before values after h hlen
    refine ⟨{ b with values := values }, ?_, ⟨h.1, hlen.trans h.2⟩, rfl⟩
    have hlen' : b.values.length = values.length := hlen.symm
    change ((List.range b.values.length).mapM
      fun idx => (before ++ values ++ after)[idx + b.name.offset]?).map _ = _
    rw [h.1, hlen', mapM_read_eq]
    rfl
  apply_read := by
    intro label b before after h
    have hvalues : ((List.range b.values.length).mapM
        fun idx => (before ++ b.values ++ after)[idx + b.name.offset]?) = some b.values := by
      rw [h.1, mapM_read_eq]
    change ((List.range b.values.length).mapM
      fun idx => (before ++ b.values ++ after)[idx + b.name.offset]?).map _ = _
    rw [hvalues]
    rfl
  extract_slice := by
    intro label b before values after h hlen
    have hstart : before.length = 0 + b.name.offset := by
      rw [h.1, Nat.zero_add]
    exact foldlM_write_eq b.name.offset 0 before b.values values after hstart hlen
  positions_eq := by
    intro label b offset h
    change ((List.range b.values.length).map fun idx => _).map Name.offset = List.range' offset _
    rw [List.map_map, List.range'_eq_map_range, h.1]
    rfl

theorem GroupBundle.positions_eq (b : GroupBundle) :
    b.names.map Name.offset = ArrayBundle.slot.list.positions b.subs :=
  List.map_flatMap

theorem Bundle.lawful : Lawful Bundle.slot Bundle.Stands Bundle.read where
  length_read := by
    intro key b offset h
    cases b with
    | single b => rfl
    | array b => rfl
    | group kind b => exact ArrayBundle.lawful.list.length_read h.2
  apply_slice := by
    intro key b before values after h hlen
    cases b with
    | single b =>
      obtain ⟨q, hq, hstands, hread⟩ := SingleBundle.lawful.apply_slice after h hlen
      exact ⟨.single q, congrArg (Option.map Bundle.single) hq, hstands, hread⟩
    | array b =>
      obtain ⟨q, hq, hstands, hread⟩ := ArrayBundle.lawful.apply_slice
        (l := (key, b.values.length)) after ⟨h, rfl⟩ hlen
      exact ⟨.array q, congrArg (Option.map Bundle.array) hq, hstands.1, hread⟩
    | group kind b =>
      obtain ⟨subs, hsubs, hline, hread⟩ := ArrayBundle.lawful.list.apply_slice after h.2 hlen
      refine ⟨.group kind { b with subs := subs }, ?_, ⟨h.1, hline⟩, hread⟩
      exact congrArg (fun subs => (subs.map fun subs => { b with subs := subs }).map
        (Bundle.group kind)) hsubs
  apply_read := by
    intro key b before after h
    cases b with
    | single b =>
      exact congrArg (Option.map Bundle.single) (SingleBundle.lawful.apply_read after h)
    | array b =>
      exact congrArg (Option.map Bundle.array)
        (ArrayBundle.lawful.apply_read (l := (key, b.values.length)) after ⟨h, rfl⟩)
    | group kind b =>
      exact congrArg (fun subs => (subs.map fun subs => { b with subs := subs }).map
        (Bundle.group kind)) (ArrayBundle.lawful.list.apply_read after h.2)
  extract_slice := by
    intro key b before values after h hlen
    cases b with
    | single b => exact SingleBundle.lawful.extract_slice after h hlen
    | array b =>
      exact ArrayBundle.lawful.extract_slice (l := (key, b.values.length)) after ⟨h, rfl⟩ hlen
    | group kind b => exact ArrayBundle.lawful.list.extract_slice after h.2 hlen
  positions_eq := by
    intro key b offset h
    cases b with
    | single b => exact SingleBundle.lawful.positions_eq h
    | array b =>
      exact ArrayBundle.lawful.positions_eq (l := (key, b.values.length)) ⟨h, rfl⟩
    | group kind b =>
      exact b.positions_eq.trans (ArrayBundle.lawful.list.positions_eq h.2)

end Places

section Loading

theorem bind_eq_ok {α β : Type} {x : LoadResult α} {f : α → LoadResult β} {b : β}
    (h : x >>= f = .ok b) : ∃ a, x = .ok a ∧ f a = .ok b := by
  cases x with
  | error e => cases h
  | ok a => exact ⟨a, rfl, h⟩

theorem map_eq_ok {α β : Type} {x : LoadResult α} {f : α → β} {b : β} (h : x.map f = .ok b) :
    ∃ a, x = .ok a ∧ f a = b := by
  cases x with
  | error e => cases h
  | ok a => exact ⟨a, rfl, Except.ok.inj h⟩

theorem SingleBundle.stands_of_load {name : Name} {json : Json} {b : SingleBundle}
    (h : SingleBundle.load name json = .ok b) : SingleBundle.Stands name.name name.offset b := by
  rw [SingleBundle.load] at h
  split at h
  · cases h
    rfl
  · cases h

theorem ArrayBundle.name_of_load {name : Name} {json : Json} {b : ArrayBundle}
    (h : ArrayBundle.load name json = .ok b) : b.name = name := by
  cases json with
  | array items =>
    obtain ⟨values, _, rfl⟩ := map_eq_ok h
    rfl
  | _ => cases h

theorem GroupBundle.stands_of_loadFixedArray {name : Name} {json : Json} {subName : String}
    {len : Nat} {sub : ArrayBundle} (h : loadFixedArray name json subName len = .ok sub) :
    ArrayBundle.Stands (name.name ++ "." ++ subName, len) name.offset sub := by
  rw [loadFixedArray] at h
  split at h
  · cases h
  · obtain ⟨loaded, hloaded, hrest⟩ := bind_eq_ok h
    split at hrest
    · rename_i hcount
      cases hrest
      exact ⟨ArrayBundle.name_of_load hloaded, hcount⟩
    · cases hrest

theorem GroupBundle.inLine_of_loadParts {json : Json} {name : Name} {parts : List (String × Nat)}
    {subs : List ArrayBundle} (h : loadParts json name parts = .ok subs) :
    InLine ArrayBundle.slot ArrayBundle.Stands (labels name.name parts) name.offset subs := by
  induction parts generalizing name subs with
  | nil =>
    cases h
    exact InLine.nil _
  | cons part parts ih =>
    rw [loadParts] at h
    obtain ⟨sub, hsub, hrest⟩ := bind_eq_ok h
    obtain ⟨rest, hparts, hsubs⟩ := bind_eq_ok hrest
    cases hsubs
    exact InLine.cons (stands_of_loadFixedArray hsub) (ih hparts)

theorem GroupBundle.stands_of_load {kind : GroupKind} {name : Name} {json : Json} {b : GroupBundle}
    (h : GroupBundle.load kind name json = .ok b) :
    Bundle.Stands name.name name.offset (.group kind b) := by
  rw [GroupBundle.load] at h
  split at h
  · obtain ⟨subs, hsubs, hb⟩ := bind_eq_ok h
    cases hb
    exact ⟨rfl, inLine_of_loadParts hsubs⟩
  · cases h

theorem Bundle.stands_of_load {name : Name} {json : Json} {b : Bundle}
    (h : Bundle.load name json = .ok b) : Bundle.Stands name.name name.offset b := by
  unfold Bundle.load at h
  split at h
  · obtain ⟨loaded, hloaded, rfl⟩ := map_eq_ok h
    exact SingleBundle.stands_of_load hloaded
  · split at h
    · obtain ⟨loaded, hloaded, rfl⟩ := map_eq_ok h
      exact ArrayBundle.name_of_load hloaded
    · split at h
      · obtain ⟨loaded, hloaded, rfl⟩ := map_eq_ok h
        exact GroupBundle.stands_of_load hloaded
      · split at h
        · obtain ⟨loaded, hloaded, rfl⟩ := map_eq_ok h
          exact GroupBundle.stands_of_load hloaded
        · cases h
    · cases h

theorem Bundle.name_of_stands {key : String} {offset : Nat} {b : Bundle}
    (h : Bundle.Stands key offset b) : b.name = ⟨offset, key⟩ := by
  cases b with
  | single b => exact h
  | array b => exact h
  | group kind b => exact h.1

/-- Bundles under distinct keys, without gaps between their weights. -/
structure Regular (f : Features) (keys : List String) : Prop where
  line : InLine Bundle.slot Bundle.Stands keys 0 f.bundles
  count_eq : f.count = Bundle.slot.list.count f.bundles
  nodup : keys.Nodup

theorem Features.line_of_loadBundles {items : List Json} {added : List String} {counter : Nat}
    {loaded : List Bundle × Nat} (h : loadBundles items added counter = .ok loaded) :
    ∃ keys : List String, InLine Bundle.slot Bundle.Stands keys counter loaded.1 ∧
      loaded.2 = counter + Bundle.slot.list.count loaded.1 ∧ keys.Nodup ∧
      ∀ key ∈ keys, key ∉ added := by
  induction items generalizing added counter loaded with
  | nil =>
    cases h
    exact ⟨[], InLine.nil _, rfl, List.nodup_nil, fun key hkey => absurd hkey List.not_mem_nil⟩
  | cons item items ih =>
    unfold loadBundles at h
    split at h
    · rename_i key value
      split at h
      · cases h
      · rename_i hkey
        obtain ⟨bundle, hbundle, hrest⟩ := bind_eq_ok h
        obtain ⟨others, hothers, hok⟩ := bind_eq_ok hrest
        cases hok
        obtain ⟨keys, hline, hcount, hnodup, hnew⟩ := ih hothers
        refine ⟨key :: keys, InLine.cons (Bundle.stands_of_load hbundle) hline, ?_, ?_, ?_⟩
        · rw [hcount, list_count_cons]
          exact Nat.add_assoc _ _ _
        · refine List.nodup_cons.2 ⟨fun hmem => hnew key hmem List.mem_cons_self, hnodup⟩
        · intro other hother
          rcases List.mem_cons.1 hother with rfl | hmem
          · exact hkey
          · exact fun hin => hnew other hmem (List.mem_cons_of_mem _ hin)
    · cases h

theorem Features.regular_of_load {json : Json} {f : Features} (h : Features.load json = .ok f) :
    ∃ keys, Regular f keys := by
  cases json with
  | array items =>
    obtain ⟨loaded, hloaded, rfl⟩ := map_eq_ok h
    obtain ⟨keys, hline, hcount, hnodup, _⟩ := line_of_loadBundles hloaded
    exact ⟨keys, hline, hcount.trans (Nat.zero_add _), hnodup⟩
  | _ => cases h

end Loading

section Saving

@[simp] theorem Json.isInt_ofInt32 (value : Int32) : (Json.ofInt32 value).isInt = true := by
  rw [Json.ofInt32, Json.isInt, decide_eq_true_eq]
  exact ⟨Rat.den_intCast _, Int32.minValue_le_toInt value, Int32.toInt_le value⟩

@[simp] theorem Json.asInt_ofInt32 (value : Int32) : (Json.ofInt32 value).asInt = value :=
  Int32.ofInt_toInt value

theorem SingleBundle.load_save {name : Name} {b : SingleBundle} (h : b.name = name) :
    SingleBundle.load name b.save = .ok b := by
  rw [SingleBundle.load, SingleBundle.save, if_pos (Json.isInt_ofInt32 _), Json.asInt_ofInt32, ← h]

theorem ArrayBundle.loadItems_save (name : String) (idx : Nat) (values : List Int32) :
    loadItems name idx (values.map Json.ofInt32) = .ok values := by
  induction values generalizing idx with
  | nil => rfl
  | cons value values ih =>
    rw [List.map_cons, loadItems, if_pos (Json.isInt_ofInt32 _), ih, Json.asInt_ofInt32]
    rfl

theorem ArrayBundle.load_save {name : Name} {b : ArrayBundle} (h : b.name = name) :
    ArrayBundle.load name b.save = .ok b := by
  rw [ArrayBundle.save, ArrayBundle.load, loadItems_save, ← h]
  rfl

theorem Json.lookup_setMember (members : List (String × Json)) (key : String) (value : Json)
    (other : String) : (setMember members key value).lookup other =
      if other = key then some value else members.lookup other := by
  rw [setMember, List.lookup_cons]
  split
  · rename_i h
    rw [if_pos (eq_of_beq h)]
  · rename_i h
    have hne : other ≠ key := beq_eq_false_iff_ne.1 h
    rw [if_neg hne]
    induction members with
    | nil => rfl
    | cons member members ih =>
      rw [List.filter_cons, List.lookup_cons]
      split
      · rw [List.lookup_cons, ih]
      · rename_i hkey
        have hmember : (other == member.1) = false := by
          rw [beq_eq_false_iff_ne]
          intro heq
          rw [heq] at hne
          simp [hne] at hkey
        rw [hmember, ih]

theorem Json.lookup_foldl_setMember (entries : List ((String × Nat) × ArrayBundle))
    (members : List (String × Json)) (key : String) (hkey : key ∉ entries.map fun e => e.1.1) :
    (entries.foldl (fun members entry => setMember members entry.1.1 entry.2.save)
      members).lookup key = members.lookup key := by
  induction entries generalizing members with
  | nil => rfl
  | cons entry entries ih =>
    rw [List.map_cons, List.mem_cons, not_or] at hkey
    rw [List.foldl_cons, ih _ hkey.2, lookup_setMember, if_neg hkey.1]

theorem Json.lookup_foldl_of_mem {entries : List ((String × Nat) × ArrayBundle)}
    (hnodup : (entries.map fun e => e.1.1).Nodup) (members : List (String × Json))
    {entry : (String × Nat) × ArrayBundle} (hentry : entry ∈ entries) :
    (entries.foldl (fun members entry => setMember members entry.1.1 entry.2.save)
      members).lookup entry.1.1 = some entry.2.save := by
  induction entries generalizing members with
  | nil => exact absurd hentry List.not_mem_nil
  | cons first entries ih =>
    rw [List.map_cons, List.nodup_cons] at hnodup
    rw [List.foldl_cons]
    rcases List.mem_cons.1 hentry with rfl | hmem
    · rw [lookup_foldl_setMember _ _ _ hnodup.1, lookup_setMember, if_pos rfl]
    · exact ih hnodup.2 _ hmem

namespace GroupBundle

theorem loadParts_of_find {json : Json} {name : Name} {parts : List (String × Nat)}
    {subs : List ArrayBundle}
    (h : InLine ArrayBundle.slot ArrayBundle.Stands (labels name.name parts) name.offset subs)
    (hfind : ∀ entry ∈ parts.zip subs, json.find entry.1.1 = some entry.2.save) :
    loadParts json name parts = .ok subs := by
  induction parts generalizing name subs with
  | nil =>
    cases h
    rfl
  | cons part parts ih =>
    cases h with
    | @cons _ _ _ sub subs head tail =>
      have hsub : loadFixedArray name json part.1 part.2 = .ok sub := by
        rw [loadFixedArray, hfind (part, sub) List.mem_cons_self]
        dsimp only
        rw [ArrayBundle.load_save head.1]
        exact if_pos head.2
      have hsubs := @ih { name with offset := name.offset + sub.count } subs tail
        (fun entry hentry => hfind entry (List.mem_cons_of_mem _ hentry))
      rw [loadParts, hsub]
      change (loadParts json { name with offset := name.offset + sub.count } parts >>= _) = _
      rw [hsubs]
      rfl

theorem nodup_parts (kind : GroupKind) : (("type", 0) :: kind.parts).map Prod.fst |>.Nodup := by
  cases kind <;> decide

theorem map_zip_parts {kind : GroupKind} {subs : List ArrayBundle}
    (h : subs.length = kind.parts.length) :
    ((kind.parts.zip subs).map fun e => e.1.1) = kind.parts.map Prod.fst := by
  have hfst : (kind.parts.zip subs).map Prod.fst = kind.parts :=
    List.map_fst_zip (Nat.le_of_eq h.symm)
  conv_rhs => rw [← hfst]
  rw [List.map_map]
  rfl

theorem length_subs {kind : GroupKind} {key : String} {offset : Nat} {b : GroupBundle}
    (h : Bundle.Stands key offset (.group kind b)) : b.subs.length = kind.parts.length := by
  rw [h.2.length_eq, labels, List.length_map]

theorem hasType_save {kind : GroupKind} {key : String} {offset : Nat} {b : GroupBundle}
    (h : Bundle.Stands key offset (.group kind b)) (name : String) :
    (b.save kind).hasType name = (kind.typeName == name) := by
  have hparts := List.nodup_cons.1 (nodup_parts kind)
  have hfind : (b.save kind).find "type" = some (.string kind.typeName) := by
    rw [save, Json.find]
    rw [Json.lookup_foldl_setMember _ _ _ (by rw [map_zip_parts (length_subs h)]; exact hparts.1)]
    rfl
  rw [Json.hasType, hfind]

theorem load_save {kind : GroupKind} {name : Name} {b : GroupBundle}
    (h : Bundle.Stands name.name name.offset (.group kind b)) :
    GroupBundle.load kind name (b.save kind) = .ok b := by
  have hparts := List.nodup_cons.1 (nodup_parts kind)
  have hsubs : loadParts (b.save kind) name kind.parts = .ok b.subs := by
    apply loadParts_of_find h.2
    intro entry hentry
    exact Json.lookup_foldl_of_mem (by rw [map_zip_parts (length_subs h)]; exact hparts.2) _ hentry
  have htype : ((b.save kind).isObject && (b.save kind).hasType kind.typeName) = true := by
    rw [hasType_save h, beq_self_eq_true]
    rfl
  have hname : b.name = name := h.1
  rw [GroupBundle.load, if_pos htype, hsubs, ← hname]
  rfl

end GroupBundle

theorem Bundle.load_save {name : Name} {b : Bundle} (h : Bundle.Stands name.name name.offset b) :
    Bundle.load name b.save = .ok b := by
  cases b with
  | single b =>
    have hload : (SingleBundle.load name b.save).map Bundle.single = .ok (.single b) := by
      rw [SingleBundle.load_save h]
      rfl
    unfold Bundle.load
    exact (if_pos (Json.isInt_ofInt32 b.value)).trans hload
  | array b =>
    change (ArrayBundle.load name b.save).map Bundle.array = _
    rw [ArrayBundle.load_save h]
    rfl
  | group kind b =>
    have hload := GroupBundle.load_save h
    cases kind with
    | psq =>
      change (if (b.save .psq).hasType "psq" = true then
        (GroupBundle.load .psq name (b.save .psq)).map (Bundle.group .psq) else _) = _
      rw [if_pos (by rw [GroupBundle.hasType_save h]; rfl), hload]
      rfl
    | kingPawn =>
      change (if (b.save .kingPawn).hasType "psq" = true then _
        else if (b.save .kingPawn).hasType "king_pawn" = true then
          (GroupBundle.load .kingPawn name (b.save .kingPawn)).map (Bundle.group .kingPawn)
        else _) = _
      rw [if_neg (by rw [GroupBundle.hasType_save h]; decide),
        if_pos (by rw [GroupBundle.hasType_save h]; rfl), hload]
      rfl

theorem Features.loadBundles_save {keys added : List String} {counter : Nat} {bundles : List Bundle}
    (h : InLine Bundle.slot Bundle.Stands keys counter bundles) (hnodup : keys.Nodup)
    (hnew : ∀ key ∈ keys, key ∉ added) :
    loadBundles (bundles.map fun bundle => .object [(bundle.name.name, bundle.save)]) added counter
      = .ok (bundles, counter + Bundle.slot.list.count bundles) := by
  induction h generalizing added with
  | nil offset => rfl
  | @cons key keys offset bundle bundles head tail ih =>
    have hname := Bundle.name_of_stands head
    have hbundle : Bundle.load ⟨offset, key⟩ bundle.save = .ok bundle := Bundle.load_save head
    obtain ⟨hkey, hnodup⟩ := List.nodup_cons.1 hnodup
    have hrest := @ih (key :: added) hnodup (by
      intro other hother
      apply List.not_mem_cons_of_ne_of_not_mem _ (hnew other (List.mem_cons_of_mem _ hother))
      intro heq
      exact hkey (heq ▸ hother))
    rw [List.map_cons, loadBundles, hname]
    dsimp only
    rw [if_neg (hnew key List.mem_cons_self), hbundle]
    change (loadBundles _ (key :: added) (offset + bundle.count) >>= _) = _
    rw [show offset + bundle.count = offset + Bundle.slot.count bundle from rfl, hrest,
      list_count_cons, ← Nat.add_assoc]
    rfl

theorem Regular.load_save {f : Features} {keys : List String} (h : Regular f keys) :
    Features.load f.save = .ok f := by
  change (Features.loadBundles _ [] 0).map _ = _
  rw [Features.loadBundles_save h.line h.nodup (fun key _ => List.not_mem_nil)]
  change Except.ok (Features.mk f.bundles (0 + Bundle.slot.list.count f.bundles)) = _
  rw [Nat.zero_add, ← h.count_eq]

theorem Regular.names_eq {f : Features} {keys : List String} (h : Regular f keys) :
    ∃ names, f.names = some names ∧ names.length = f.count ∧
      names.map Name.offset = List.range f.count := by
  have hoffsets : (f.bundles.flatMap Bundle.names).map Name.offset = List.range f.count := by
    rw [List.map_flatMap, h.count_eq, List.range_eq_range']
    exact Bundle.lawful.list.positions_eq h.line
  have hlen : (f.bundles.flatMap Bundle.names).length = f.count := by
    rw [← List.length_map Name.offset, hoffsets, List.length_range]
  refine ⟨f.bundles.flatMap Bundle.names, if_pos ⟨hlen, ?_⟩, hlen, hoffsets⟩
  rw [List.all_eq_true]
  intro entry hentry
  obtain ⟨hidx, hname⟩ := List.mem_zipIdx' hentry
  have hget : ((f.bundles.flatMap Bundle.names).map Name.offset)[entry.2]? = some entry.2 := by
    rw [hoffsets, List.getElem?_range (by omega)]
  rw [List.getElem?_map, List.getElem?_eq_getElem hidx, ← hname] at hget
  exact beq_iff_eq.2 (Option.some.inj hget)

theorem Regular.apply_eq {f : Features} {keys : List String} (h : Regular f keys)
    {weights : List Int32} (hlen : weights.length = f.count) :
    ∃ g, f.apply weights = some g ∧ Regular g keys ∧ g.count = f.count ∧
      g.extract = some weights := by
  have hblank : (List.replicate f.count (0 : Int32)).length = Bundle.slot.list.count f.bundles := by
    rw [List.length_replicate, h.count_eq]
  obtain ⟨bundles, hin, hline, hcount, hout⟩ := Bundle.lawful.list.extract_apply h.line
    (hlen.trans h.count_eq) hblank
  refine ⟨⟨bundles, f.count⟩, ?_, ⟨hline, h.count_eq.trans hcount.symm, h.nodup⟩, rfl, hout⟩
  rw [Features.apply, if_pos hlen]
  exact congrArg (Option.map fun bundles => { f with bundles := bundles }) hin

theorem Regular.extract_eq {f : Features} {keys : List String} (h : Regular f keys) :
    ∃ weights, f.extract = some weights ∧ weights.length = f.count ∧ f.apply weights = some f := by
  have hblank : (List.replicate f.count (0 : Int32)).length = Bundle.slot.list.count f.bundles := by
    rw [List.length_replicate, h.count_eq]
  obtain ⟨weights, hout, hlen, hin⟩ := Bundle.lawful.list.apply_extract h.line hblank
  have hsize := hlen.trans h.count_eq.symm
  refine ⟨weights, hout, hsize, ?_⟩
  rw [Features.apply, if_pos hsize]
  exact congrArg (Option.map fun bundles => { f with bundles := bundles }) hin

theorem Regular.extract_read {f : Features} {keys : List String} (h : Regular f keys) :
    f.extract = some (f.bundles.flatMap Bundle.read) := by
  have hblank : (List.replicate f.count (0 : Int32)).length = Bundle.slot.list.count f.bundles := by
    rw [List.length_replicate, h.count_eq]
  have hout : Bundle.slot.list.extract f.bundles ([] ++ List.replicate f.count 0 ++ []) =
      some ([] ++ f.bundles.flatMap Bundle.read ++ []) :=
    Bundle.lawful.list_extract_slice [] h.line hblank
  rw [List.nil_append, List.append_nil, List.nil_append, List.append_nil] at hout
  exact hout

end Saving

/-- Loaded features and vectors of weights correspond one to one. -/
theorem features_correspond (json : Json) (f : Features) (h : Features.load json = .ok f) :
    (∃ names, f.names = some names ∧ names.length = f.count ∧
      names.map Name.offset = List.range f.count) ∧
    (∀ weights : List Int32, weights.length = f.count →
      ∃ g, f.apply weights = some g ∧ g.count = f.count ∧ g.extract = some weights ∧
        Features.load g.save = .ok g) ∧
    (∃ weights, f.extract = some weights ∧ weights.length = f.count ∧ f.apply weights = some f) ∧
    Features.load f.save = .ok f := by
  obtain ⟨keys, hregular⟩ := Features.regular_of_load h
  refine ⟨hregular.names_eq, ?_, hregular.extract_eq, hregular.load_save⟩
  intro weights hlen
  obtain ⟨g, hg, hregular', hcount, hout⟩ := hregular.apply_eq hlen
  exact ⟨g, hg, hcount, hout, hregular'.load_save⟩

/-- A single value, an array and a group. -/
def smallFile : Json :=
  .array [.object [("tempo", .number 15)], .object [("bishops", .array [.number 30, .number (-4)])],
    .object [("king_pawn", .object [("storm", .array (List.replicate 6 (.number 2))),
      ("type", .string "king_pawn"), ("shield", .array (List.replicate 6 (.number (-1))))])]]

def smallFeatures : Features :=
  ⟨[.single ⟨⟨0, "tempo"⟩, 15⟩, .array ⟨⟨1, "bishops"⟩, [30, -4]⟩,
    .group .kingPawn ⟨⟨3, "king_pawn"⟩, [⟨⟨3, "king_pawn.shield"⟩, List.replicate 6 (-1)⟩,
      ⟨⟨9, "king_pawn.storm"⟩, List.replicate 6 2⟩]⟩], 15⟩

theorem features_correspond_smallFile :
    (∃ names, smallFeatures.names = some names ∧ names.length = 15 ∧
      names.map Name.offset = List.range 15) ∧
    (∀ weights : List Int32, weights.length = 15 →
      ∃ g, smallFeatures.apply weights = some g ∧ g.count = 15 ∧ g.extract = some weights ∧
        Features.load g.save = .ok g) ∧
    (∃ weights, smallFeatures.extract = some weights ∧ weights.length = 15 ∧
      smallFeatures.apply weights = some smallFeatures) ∧
    Features.load smallFeatures.save = .ok smallFeatures :=
  features_correspond smallFile smallFeatures (by decide)

end SoFCheck.Eval.Feat
