import Haechi.Core.Collect

/-! Where the leaves of a payload are. A container at the depth limit or deeper makes the
collection throw; otherwise every leaf and key is collected once, at a path that leads back
to it. Detections are grouped by the text of their kind and path, from which both are read
again, so no two places share a group. -/

namespace Haechi.Core

open Text Json Haechi.Filter JsValue

variable {ν : Type}

/-! ### Paths into the value -/

/-- What a path leads to is what it reads. -/
theorem getByPath_of_leads {v w : JsValue ν} (hv : v.Distinct) {path : Path}
    (h : Leads v path w) : v.getByPath path = w := by
  induction h with
  | here => rfl
  | item hn _ ih =>
    rw [getByPath, prop_index hn]
    exact ih (distinct_arr.mp hv _ (List.mem_of_getElem? hn))
  | member hk _ ih =>
    obtain ⟨hnodup, hfields⟩ := distinct_obj.mp hv
    rw [getByPath, prop_key hnodup hk]
    exact ih (hfields _ hk)

/-- Some array or object lies at least so deep in the value. -/
def NestsTo (v : JsValue ν) (depth : ℕ) : Prop :=
  ∃ path w, Leads v path w ∧ w.isContainer = true ∧ depth ≤ path.length

theorem nestsTo_leaf {v : JsValue ν} (hv : v.isContainer = false) (depth : ℕ) :
    ¬NestsTo v depth := by
  rintro ⟨path, w, h, hw, -⟩
  obtain ⟨-, rfl⟩ := (leads_leaf hv).mp h
  rw [hv] at hw
  cases hw

theorem nestsTo_zero {v : JsValue ν} (hv : v.isContainer = true) : NestsTo v 0 :=
  ⟨[], v, .here v, hv, Nat.zero_le _⟩

theorem nestsTo_arr {items : List (JsValue ν)} {depth : ℕ} :
    NestsTo (.arr items) (depth + 1) ↔ ∃ v ∈ items, NestsTo v depth := by
  constructor
  · rintro ⟨path, w, h, hw, hle⟩
    cases h with
    | here => exact absurd hle (by simp)
    | item hn h => exact ⟨_, List.mem_of_getElem? hn, _, w, h, hw, by simpa using hle⟩
  · rintro ⟨v, hmem, path, w, h, hw, hle⟩
    obtain ⟨n, hn⟩ := List.getElem?_of_mem hmem
    exact ⟨_, w, .item hn h, hw, by simpa using hle⟩

theorem nestsTo_obj {fields : List (JsString × JsValue ν)} {depth : ℕ} :
    NestsTo (.obj fields) (depth + 1) ↔ ∃ kv ∈ fields, NestsTo kv.2 depth := by
  constructor
  · rintro ⟨path, w, h, hw, hle⟩
    cases h with
    | here => exact absurd hle (by simp)
    | member hk h => exact ⟨_, hk, _, w, h, hw, by simpa using hle⟩
  · rintro ⟨kv, hmem, path, w, h, hw, hle⟩
    exact ⟨_, w, .member hmem h, hw, by simpa using hle⟩

variable [JsNumber ν]

/-! ### Throwing -/

section Throw

variable {shortHash : JsString → JsString} {maxDepth : ℕ} {path : Path}

theorem collectItems_eq_none {n : ℕ} {items : List (JsValue ν)} :
    collectItems shortHash maxDepth path n items = none ↔
      ∃ i v, items[i]? = some v ∧
        collectStringEntries shortHash maxDepth (path ++ [.index (n + i)]) v = none := by
  induction items generalizing n with
  | nil => simp [collectItems]
  | cons v vs ih =>
    constructor
    · intro h
      cases hhere : collectStringEntries shortHash maxDepth (path ++ [.index n]) v with
      | none => exact ⟨0, v, rfl, by simpa using hhere⟩
      | some here =>
        cases hrest : collectItems shortHash maxDepth path (n + 1) vs with
        | none =>
          obtain ⟨i, w, hi, hw⟩ := ih.mp hrest
          exact ⟨i + 1, w, by simpa using hi, by rwa [Nat.add_comm i, ← Nat.add_assoc]⟩
        | some rest =>
          rw [collectItems, hhere, hrest] at h
          cases h
    · rintro ⟨i, w, hi, hw⟩
      cases i with
      | zero =>
        obtain rfl := Option.some.inj hi
        rw [collectItems, show n = n + 0 from rfl, hw]
        rfl
      | succ i =>
        have hrest : collectItems shortHash maxDepth path (n + 1) vs = none :=
          ih.mpr ⟨i, w, by simpa using hi, by rwa [Nat.add_assoc, Nat.add_comm 1]⟩
        rw [collectItems, hrest]
        cases collectStringEntries shortHash maxDepth (path ++ [.index n]) v <;> rfl

theorem collectFields_eq_none {fields : List (JsString × JsValue ν)} :
    collectFields shortHash maxDepth path fields = none ↔
      ∃ kv ∈ fields, collectStringEntries shortHash maxDepth (path ++ [.key kv.1]) kv.2 = none := by
  induction fields with
  | nil => simp [collectFields]
  | cons kv fs ih =>
    rw [List.exists_mem_cons_iff, ← ih, collectFields]
    cases collectStringEntries shortHash maxDepth (path ++ [.key kv.1]) kv.2 with
    | none => simp
    | some here => cases collectFields shortHash maxDepth path fs <;> simp

/-- One part more of the path, one level less below it. -/
theorem exists_depth (h : path.length < maxDepth) : ∃ depth, maxDepth - path.length = depth + 1 ∧
    ∀ part : PathPart, maxDepth - (path ++ [part]).length = depth := by
  refine ⟨maxDepth - path.length - 1, by omega, fun part => ?_⟩
  rw [List.length_append, List.length_singleton]
  omega

/-- The collection throws exactly where a container lies at the depth limit or deeper. -/
theorem collectStringEntries_eq_none (v : JsValue ν) :
    collectStringEntries shortHash maxDepth path v = none ↔ NestsTo v (maxDepth - path.length) := by
  induction v using JsValue.induct generalizing path with
  | arr items ih =>
    rw [collectStringEntries]
    split
    · rename_i hle
      rw [Nat.sub_eq_zero_of_le hle]
      exact iff_of_true rfl (nestsTo_zero rfl)
    · rename_i hlt
      obtain ⟨depth, hdepth, hitem⟩ := exists_depth (not_le.mp hlt)
      rw [collectItems_eq_none, hdepth, nestsTo_arr]
      constructor
      · rintro ⟨i, v, hi, hv⟩
        have hmem := List.mem_of_getElem? hi
        exact ⟨v, hmem, hitem (.index (0 + i)) ▸ (ih v hmem).mp hv⟩
      · rintro ⟨v, hmem, hv⟩
        obtain ⟨i, hi⟩ := List.getElem?_of_mem hmem
        exact ⟨i, v, hi, (ih v hmem).mpr ((hitem (.index (0 + i))).symm ▸ hv)⟩
  | obj fields ih =>
    rw [collectStringEntries]
    split
    · rename_i hle
      rw [Nat.sub_eq_zero_of_le hle]
      exact iff_of_true rfl (nestsTo_zero rfl)
    · rename_i hlt
      obtain ⟨depth, hdepth, hmember⟩ := exists_depth (not_le.mp hlt)
      rw [collectFields_eq_none, hdepth, nestsTo_obj]
      refine exists_congr fun kv => and_congr_right fun hkv => ?_
      rw [ih kv hkv, hmember]
  | _ => exact iff_of_false (by simp [collectStringEntries]) (nestsTo_leaf rfl _)

end Throw

/-! ### The grouping key -/

/-- `detection.kind`. -/
def kindName : Kind → JsString
  | .value => js "value"
  | .number => js "number"
  | .key => js "key"

/-- A part of a path as JSON writes it. -/
def partValue : PathPart → JsValue ν
  | .key k => .str k
  | .index n => .num (JsNumber.ofNat n)

variable (ν) in
/-- `JSON.stringify([kind, path])`. -/
def groupKey (kind : Kind) (path : Path) : JsString :=
  (stringify (.arr [.str (kindName kind), .arr (path.map partValue)] : JsValue ν)).getD []

theorem kindName_injective : Function.Injective kindName := by
  intro kind kind' h
  cases kind <;> cases kind' <;> first | rfl | exact absurd h (by decide)

theorem partValue_injective : Function.Injective (partValue : PathPart → JsValue ν) := by
  intro part part' h
  cases part with
  | key k =>
    cases part' with
    | key k' => exact congrArg PathPart.key (JsValue.str.inj h)
    | index n => cases h
  | index n =>
    cases part' with
    | key k => cases h
    | index n' => exact congrArg PathPart.index (JsNumber.ofNat_injective (JsValue.num.inj h))

/-- `JSON.parse(groupKey)` gives the kind and the path back. -/
theorem parse_groupKey (kind : Kind) (path : Path) :
    parse (groupKey ν kind path) =
      some (.arr [.str (kindName kind), .arr (path.map partValue)] : JsValue ν) := by
  have hparts : WellFormed (.arr (path.map partValue) : JsValue ν) := by
    refine wellFormed_arr fun v hv => ?_
    obtain ⟨part, -, rfl⟩ := List.mem_map.mp hv
    cases part <;> exact ⟨rfl, trivial⟩
  have hwell : WellFormed (.arr [.str (kindName kind), .arr (path.map partValue)] : JsValue ν) := by
    refine wellFormed_arr fun v hv => ?_
    rcases List.mem_cons.mp hv with rfl | hv
    · exact ⟨rfl, trivial⟩
    · rwa [List.mem_singleton.mp hv]
  obtain ⟨text, htext⟩ := Option.isSome_iff_exists.mp (stringify_isSome
    (v := .arr [.str (kindName kind), .arr (path.map partValue)]) (ν := ν) nofun)
  rw [groupKey, htext, Option.getD_some, parse_stringify htext hwell.2,
    JsValue.prune_of_isJson _ hwell.1]

/-- Two places with one key are one place. -/
theorem groupKey_inj {kind kind' : Kind} {path path' : Path}
    (h : groupKey ν kind path = groupKey ν kind' path') : kind = kind' ∧ path = path' := by
  have hparse := parse_groupKey (ν := ν) kind path
  rw [h, parse_groupKey, Option.some.injEq, JsValue.arr.injEq, List.cons.injEq, List.cons.injEq,
    JsValue.str.injEq, JsValue.arr.injEq] at hparse
  obtain ⟨hkind, hpath, -⟩ := hparse
  exact ⟨(kindName_injective hkind).symm,
    (List.map_injective_iff.mpr partValue_injective hpath).symm⟩

/-! ### A call -/

/-- What a call throws. -/
structure NestingDepthError where
  message : JsString
  statusCode : ℕ
  errorCode : JsString
deriving DecidableEq

/-- `DEFAULT_MAX_NESTING_DEPTH`. -/
def defaultMaxNestingDepth : ℕ := 256

/-- The depth limit of a call: `options.maxDepth` where it is a positive integer. -/
def depthLimit (maxDepth : Option ℤ) : ℕ :=
  match maxDepth with
  | some n => if 0 < n then n.toNat else defaultMaxNestingDepth
  | none => defaultMaxNestingDepth

def nestingDepthError (maxDepth : ℕ) : NestingDepthError where
  message := js "Request JSON nesting exceeds limits.maxNestingDepth (" ++ natText maxDepth ++ js ")"
  statusCode := 413
  errorCode := js "haechi_request_too_deeply_nested"

/-- `collectStringEntries(value, [], options)`. -/
def collectEntries (shortHash : JsString → JsString) (maxDepth : Option ℤ) (v : JsValue ν) :
    Except NestingDepthError (List Entry) :=
  match collectStringEntries shortHash (depthLimit maxDepth) [] v with
  | some entries => .ok entries
  | none => .error (nestingDepthError (depthLimit maxDepth))

/-- What a value entry was collected from. -/
def ReadsBack (v : JsValue ν) (e : Entry) : Prop :=
  match e.kind with
  | .value => v.getByPath e.path = .str e.value
  | .number => ∃ x, v.getByPath e.path = .num x ∧ JsNumber.toText x = e.value
  | .key => ∃ pre fields, e.path = pre ++ [.key e.value] ∧ v.getByPath pre = .obj fields ∧
      e.value ∈ fields.map Prod.fst

theorem readsBack_entryAt {shortHash : JsString → JsString} {v : JsValue ν} (hv : v.Distinct)
    {kind : Kind} {path : Path} {s : JsString} (h : Holds v kind path s) :
    ReadsBack v (entryAt shortHash path s kind) := by
  cases kind with
  | value => exact getByPath_of_leads hv h
  | number =>
    obtain ⟨x, hx, htext⟩ := h
    exact ⟨x, getByPath_of_leads hv hx, htext⟩
  | key =>
    obtain ⟨pre, fields, hpath, hpre, hs⟩ := h
    exact ⟨pre, fields, hpath, getByPath_of_leads hv hpre, hs⟩

/-- A member of the name of an inherited one, with a number in a list. -/
def tricky : JsValue NumberToken :=
  .obj [(js "__proto__", .arr [.num (JsNumber.ofNat 7)]), (js "a.b", .str (js "x"))]

end Haechi.Core
