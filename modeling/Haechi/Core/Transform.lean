import Haechi.Core.Precision

/-! Rewriting one text: the spans of its detections are replaced by what their
actions say, from left to right, and a span that starts inside a replaced one is
passed over. The rewritten text is also given in pieces, which say where each
character of the original went. -/

namespace Haechi.Core

open Text Haechi.Filter

inductive Action where
  | allow
  | redact
  | mask
  | tokenize
  | encrypt
  | block
deriving DecidableEq

/-- What the crypto provider and the token vault give for a segment. -/
structure Replacer where
  /-- The first twelve hexadecimal digits of a text's SHA-256. -/
  shortHash : JsString → JsString
  /-- The token of a vault, if there is one. -/
  vaultToken : Option (JsString → Detection → JsString)
  /-- The JSON text of an encryption envelope. -/
  envelope : JsString → Detection → JsString

/-- `maskSensitive`: a short text is hidden whole. -/
def maskSensitive (value : JsString) : JsString :=
  if value.length ≤ 8 then List.replicate value.length 42
  else
    value.take 2 ++ List.replicate (max 4 (value.length - 4)) 42 ++ value.drop (value.length - 2)

/-- A text between a marker's name and its closing bracket. -/
def marker (name : String) (inner : JsString) : JsString := 91 :: js name ++ 58 :: inner ++ [93]

/-- Actions other than the four that rewrite leave the segment. -/
def replacementFor (p : Replacer) (segment : JsString) (d : Detection) : Action → JsString
  | .redact => marker "REDACTED" d.type
  | .mask => maskSensitive segment
  | .tokenize =>
    match p.vaultToken with
    | some token => marker "TOKEN" (token segment d)
    | none => marker "TOKEN" (d.type ++ 58 :: p.shortHash segment)
  | .encrypt => marker "HAECHI_ENC" (base64UrlEncode (p.envelope segment d))
  | .allow => segment
  | .block => segment

/-- A detection with the decision made for it. -/
abbrev Item := Detection × Action

def Item.start (item : Item) : ℕ := item.1.start

def Item.stop (item : Item) : ℕ := item.1.stop

/-- The decision rewrites the span. -/
def rewrites (a : Action) : Bool := a != .allow && a != .block

def sortedItems (items : List Item) : List Item :=
  (items.filter fun item => rewrites item.2).insertionSort fun a b => a.1.start ≤ b.1.start

/-- The loop of `transformString` over the sorted items. -/
def transformFrom (p : Replacer) (value : JsString) : ℕ → List Item → JsString
  | cursor, [] => value.drop cursor
  | cursor, (d, a) :: rest =>
    if d.start < cursor then transformFrom p value cursor rest
    else
      slice value cursor d.start ++ replacementFor p (slice value d.start d.stop) d a ++
        transformFrom p value d.stop rest

def transformString (p : Replacer) (value : JsString) (items : List Item) : JsString :=
  transformFrom p value 0 (sortedItems items)

/-! ### Pieces -/

/-- A part of a rewritten text: left in clear, or replaced. -/
inductive Piece where
  | clear (text : JsString)
  | replaced (source output : JsString)
deriving DecidableEq

namespace Piece

def source : Piece → JsString
  | .clear text => text
  | .replaced source _ => source

def output : Piece → JsString
  | .clear text => text
  | .replaced _ output => output

def isReplaced : Piece → Bool
  | .clear _ => false
  | .replaced _ _ => true

end Piece

def sourceOf (ps : List Piece) : JsString := ps.flatMap Piece.source

def outputOf (ps : List Piece) : JsString := ps.flatMap Piece.output

/-- For each character of the original, whether a replacement took its place. -/
def marks (ps : List Piece) : List Bool :=
  ps.flatMap fun p => List.replicate p.source.length p.isReplaced

def piecesFrom (p : Replacer) (value : JsString) : ℕ → List Item → List Piece
  | cursor, [] => [.clear (value.drop cursor)]
  | cursor, (d, a) :: rest =>
    if d.start < cursor then piecesFrom p value cursor rest
    else
      .clear (slice value cursor d.start) ::
        .replaced (slice value d.start d.stop) (replacementFor p (slice value d.start d.stop) d a) ::
          piecesFrom p value d.stop rest

def transformPieces (p : Replacer) (value : JsString) (items : List Item) : List Piece :=
  piecesFrom p value 0 (sortedItems items)

variable {p : Replacer} {value : JsString} {items : List Item}

@[simp] theorem marks_nil : marks [] = [] := rfl

@[simp] theorem marks_append (ps qs : List Piece) : marks (ps ++ qs) = marks ps ++ marks qs := by
  simp [marks]

@[simp] theorem sourceOf_append (ps qs : List Piece) :
    sourceOf (ps ++ qs) = sourceOf ps ++ sourceOf qs := by simp [sourceOf]

@[simp] theorem outputOf_append (ps qs : List Piece) :
    outputOf (ps ++ qs) = outputOf ps ++ outputOf qs := by simp [outputOf]

@[simp] theorem length_marks (ps : List Piece) : (marks ps).length = (sourceOf ps).length := by
  induction ps with
  | nil => rfl
  | cons q ps ih =>
    simp only [marks, sourceOf, List.flatMap_cons, List.length_append, List.length_replicate] at ih ⊢
    rw [ih]

theorem transformFrom_eq_outputOf (cursor : ℕ) :
    transformFrom p value cursor items = outputOf (piecesFrom p value cursor items) := by
  induction items generalizing cursor with
  | nil => simp [transformFrom, piecesFrom, outputOf, Piece.output]
  | cons item items ih =>
    rw [transformFrom, piecesFrom]
    split_ifs
    · exact ih cursor
    · rw [ih]
      simp [outputOf, Piece.output]

/-- The pieces put together are the rewritten text. -/
theorem transformString_eq_outputOf :
    transformString p value items = outputOf (transformPieces p value items) :=
  transformFrom_eq_outputOf 0

/-- The pieces are the text, and the replaced characters are those of the items that
the loop takes. -/
theorem marks_piecesFrom (h : ∀ item ∈ items, item.1.start ≤ item.1.stop ∧ item.1.stop ≤ value.length)
    {cursor : ℕ} (hc : cursor ≤ value.length) :
    sourceOf (piecesFrom p value cursor items) = value.drop cursor ∧
      ∀ i, cursor ≤ i → ((marks (piecesFrom p value cursor items))[i - cursor]? = some true ↔
        ∃ item ∈ Select.acceptFrom Item.start Item.stop cursor items,
          item.1.start ≤ i ∧ i < item.1.stop) := by
  induction items generalizing cursor with
  | nil =>
    simp [piecesFrom, sourceOf, Piece.source, Select.acceptFrom, marks, Piece.isReplaced,
      List.getElem?_replicate]
  | cons item items ih =>
    obtain ⟨d, a⟩ := item
    obtain ⟨hd, h⟩ := List.forall_mem_cons.mp h
    simp only at hd
    rw [piecesFrom, Select.acceptFrom]
    by_cases hlt : d.start < cursor
    · rw [if_pos hlt, if_pos (show Item.start (d, a) < cursor from hlt)]
      exact ih h hc
    · rw [if_neg hlt, if_neg (show ¬Item.start (d, a) < cursor from hlt)]
      obtain ⟨hsource, hmarks⟩ := ih h hd.2
      have hclear : (slice value cursor d.start).length = d.start - cursor := length_slice (by omega)
      have hspan : (slice value d.start d.stop).length = d.stop - d.start := length_slice hd.2
      constructor
      · rw [sourceOf, List.flatMap_cons, List.flatMap_cons, ← sourceOf, hsource]
        simp only [Piece.source]
        rw [← List.append_assoc, slice_append_slice value (by omega) hd.1]
        conv_rhs => rw [← List.take_append_drop (d.stop - cursor) (value.drop cursor)]
        rw [List.drop_drop, slice, List.take_drop, show cursor + (d.stop - cursor) = d.stop by omega]
      · have hpieces : ∀ ps, marks (.clear (slice value cursor d.start) ::
            .replaced (slice value d.start d.stop)
              (replacementFor p (slice value d.start d.stop) d a) :: ps) =
            List.replicate (d.start - cursor) false ++
              (List.replicate (d.stop - d.start) true ++ marks ps) := by
          intro ps
          simp [marks, Piece.source, Piece.isReplaced, hclear, hspan]
        have hlater : ∀ item ∈ Select.acceptFrom Item.start Item.stop d.stop items,
            d.stop ≤ item.1.start :=
          Select.le_start_acceptFrom (D := Item) fun item hitem => (h item hitem).1
        intro i hi
        rw [hpieces, List.exists_mem_cons_iff]
        -- before the span, in it, and after it
        rcases Nat.lt_or_ge i d.start with hbefore | hfrom
        · rw [List.getElem?_append_left (by simp; omega), List.getElem?_replicate,
            if_pos (by omega)]
          simp only [Option.some.injEq, Bool.false_eq_true, false_iff, not_or, not_exists, not_and]
          refine ⟨fun _ => by omega, fun item hitem _ => ?_⟩
          have := hlater item hitem
          omega
        · rw [List.getElem?_append_right (by simp; omega), List.length_replicate]
          rcases Nat.lt_or_ge i d.stop with hin | hafter
          · rw [List.getElem?_append_left (by simp; omega), List.getElem?_replicate,
              if_pos (by omega)]
            exact iff_of_true rfl (.inl ⟨hfrom, hin⟩)
          · rw [List.getElem?_append_right (by simp; omega), List.length_replicate,
              show i - cursor - (d.start - cursor) - (d.stop - d.start) = i - d.stop by omega,
              hmarks i hafter]
            exact ⟨.inr, fun h' => h'.resolve_left fun h' => Nat.not_lt.mpr hafter h'.2⟩

theorem mem_sortedItems {item : Item} :
    item ∈ sortedItems items ↔ item ∈ items ∧ rewrites item.2 = true := by
  rw [sortedItems, List.mem_insertionSort, List.mem_filter]

theorem pairwise_sortedItems (items : List Item) :
    (sortedItems items).Pairwise fun a b => a.start ≤ b.start := by
  have : Std.Total fun a b : Item => a.1.start ≤ b.1.start := ⟨fun _ _ => Nat.le_total _ _⟩
  have : IsTrans Item fun a b => a.1.start ≤ b.1.start := ⟨fun _ _ _ => Nat.le_trans⟩
  exact List.pairwise_insertionSort _ _

/-- The items that the loop takes. -/
def takenItems (items : List Item) : List Item :=
  Select.acceptFrom Item.start Item.stop 0 (sortedItems items)

theorem mem_of_mem_takenItems {item : Item} (h : item ∈ takenItems items) :
    item ∈ items ∧ rewrites item.2 = true :=
  mem_sortedItems.mp ((Select.acceptFrom_sublist _ _).mem h)

/-- A span that is to be rewritten is taken, or starts in one that is. -/
theorem takenItems_covers {item : Item} (h : item ∈ items) (hr : rewrites item.2 = true) :
    item ∈ takenItems items ∨
      ∃ other ∈ takenItems items, other.1.start ≤ item.1.start ∧ item.1.start < other.1.stop := by
  have hcovers := @Select.acceptFrom_covers _ Item.start Item.stop 0 _ (pairwise_sortedItems items) _
    (mem_sortedItems.mpr ⟨h, hr⟩)
  rcases hcovers with h | h | h
  · exact .inl h
  · omega
  · exact .inr h

/-- The characters that are replaced are those of the items taken. -/
theorem marks_transformPieces
    (h : ∀ item ∈ items, item.1.start ≤ item.1.stop ∧ item.1.stop ≤ value.length) :
    sourceOf (transformPieces p value items) = value ∧
      ∀ i : ℕ, (marks (transformPieces p value items))[i]? = some true ↔
        ∃ item ∈ takenItems items, item.1.start ≤ i ∧ i < item.1.stop := by
  obtain ⟨hsource, hmarks⟩ := marks_piecesFrom (p := p)
    (fun item hitem => h item (mem_sortedItems.mp hitem).1) (Nat.zero_le _)
  exact ⟨hsource, fun i => hmarks i (Nat.zero_le i)⟩

/-- Where the detections are exact, every span that is to be rewritten is. -/
theorem marks_transformPieces_of_exact (h : Exact (items.map Prod.fst) value.length) :
    sourceOf (transformPieces p value items) = value ∧
      ∀ item ∈ items, rewrites item.2 = true → ∀ i, item.1.start ≤ i → i < item.1.stop →
        (marks (transformPieces p value items))[i]? = some true := by
  obtain ⟨hsource, hmarks⟩ := marks_transformPieces (p := p) fun item hitem =>
    h.1 _ (List.mem_map_of_mem hitem)
  refine ⟨hsource, fun item hitem hr i hi hi' => (hmarks i).mpr ?_⟩
  rcases takenItems_covers hitem hr with htaken | ⟨other, hother, hle, hlt⟩
  · exact ⟨item, htaken, hi, hi'⟩
  · have := h.stop_le (List.mem_map_of_mem hitem)
      (List.mem_map_of_mem (mem_of_mem_takenItems hother).1) hle hlt
    exact ⟨other, hother, by omega, by omega⟩

end Haechi.Core
