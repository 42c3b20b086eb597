import Haechi.Text.Markers
import Haechi.Text.Value

/-! Restoring the tokens of a request in its response. The code replaces the marker of
one token after another, in leaves and keys, and rebuilds every object. Its purpose is
one simultaneous substitution: a text is cut at the markers of the mapped tokens, and
each is replaced once. Proved: for every order of the tokens each step replaces only
markers of the original text and the result is the substitution, entry for entry,
exactly when restoring the other tokens makes no further marker of a token and the keys
of an object restore to distinct texts. -/

namespace Haechi.Proxy

open Text JsValue

variable {ν : Type}

/-! ### The code -/

def tokenMarker (token : JsString) : JsString := js "[TOKEN:" ++ token ++ js "]"

/-- `restoreTokens` of a text, for the entries of the map in their order. -/
def restoreText (tokenValues : List (JsString × JsString)) (value : JsString) : JsString :=
  tokenValues.foldl (fun output e => replaceAll (tokenMarker e.1) e.2 output) value

/-- `Object.fromEntries`: a later entry takes the place of an earlier one. -/
def fromEntries (entries : List (JsString × JsValue ν)) : List (JsString × JsValue ν) :=
  entries.foldl (fun fields e => setField e.1 e.2 fields) []

mutual

def restoreTokens (tokenValues : List (JsString × JsString)) : JsValue ν → JsValue ν
  | .str s => .str (restoreText tokenValues s)
  | .arr items => .arr (restoreItems tokenValues items)
  | .obj fields => .obj (fromEntries (restoreEntries tokenValues fields))
  | v => v

def restoreItems (tokenValues : List (JsString × JsString)) :
    List (JsValue ν) → List (JsValue ν)
  | [] => []
  | v :: vs => restoreTokens tokenValues v :: restoreItems tokenValues vs

def restoreEntries (tokenValues : List (JsString × JsString)) :
    List (JsString × JsValue ν) → List (JsString × JsValue ν)
  | [] => []
  | (k, v) :: fs =>
    (restoreText tokenValues k, restoreTokens tokenValues v) :: restoreEntries tokenValues fs

end

/-! ### Simultaneous substitution -/

/-- The tokens to restore: a map, and no token holds a bracket. -/
structure TokenValues where
  entries : List (JsString × JsString)
  nodup : (entries.map Prod.fst).Nodup
  plain : ∀ e ∈ entries, 91 ∉ e.1 ∧ 93 ∉ e.1

/-- A text is cut into markers of tokens and other units. -/
inductive Piece where
  | unit (c : UInt16)
  | mark (token : JsString)
deriving DecidableEq

/-- The token whose marker a text starts with. -/
def startsWith (tokens : List JsString) (s : JsString) : Option JsString :=
  tokens.find? fun t => (tokenMarker t).isPrefixOf s

/-- The pieces of a text, with the units of a marker still to be skipped. -/
def piecesFrom (tokens : List JsString) : ℕ → JsString → List Piece
  | _, [] => []
  | skip + 1, _ :: s => piecesFrom tokens skip s
  | 0, c :: s =>
    match startsWith tokens (c :: s) with
    | some t => .mark t :: piecesFrom tokens ((tokenMarker t).length - 1) s
    | none => .unit c :: piecesFrom tokens 0 s

def pieces (tokens : List JsString) (s : JsString) : List Piece := piecesFrom tokens 0 s

def Piece.text (plain : JsString → JsString) : Piece → JsString
  | .unit c => [c]
  | .mark t => plain t

/-- The text of the pieces, with a text for every marker. -/
def textOf (plain : JsString → JsString) (ps : List Piece) : JsString :=
  ps.flatMap (Piece.text plain)

/-- The plaintext of a token, or its marker where there is none. -/
def plaintextOf (entries : List (JsString × JsString)) (t : JsString) : JsString :=
  (entries.lookup t).getD (tokenMarker t)

namespace TokenValues

variable (m : TokenValues)

def tokens : List JsString := m.entries.map Prod.fst

/-- Every marker of a mapped token is replaced by its plaintext, all at once. -/
def substitute (s : JsString) : JsString := textOf (plaintextOf m.entries) (pieces m.tokens s)

/-- The plaintexts of all tokens but one. -/
def plaintextExcept (t u : JsString) : JsString :=
  if u = t then tokenMarker u else plaintextOf m.entries u

/-- The same for all tokens but one, whose markers stay. -/
def substituteExcept (t s : JsString) : JsString :=
  textOf (m.plaintextExcept t) (pieces m.tokens s)

end TokenValues

/-- The loop replaces in every step as many markers as stand in the original text. -/
def EachOriginal (value : JsString) : JsString → List (JsString × JsString) → Prop
  | _, [] => True
  | output, e :: es =>
    occurrences (tokenMarker e.1) output = occurrences (tokenMarker e.1) value ∧
      EachOriginal value (replaceAll (tokenMarker e.1) e.2 output) es

/-! ### Markers and pieces -/

/-- The token holds no bracket. -/
def IsPlain (t : JsString) : Prop := 91 ∉ t ∧ 93 ∉ t

theorem isMarker_tokenMarker {t : JsString} (h : IsPlain t) : IsMarker (tokenMarker t) := by
  refine ⟨js "TOKEN:" ++ t, rfl, ?_, ?_⟩
  · rw [List.mem_append, not_or]
    exact ⟨by decide, h.1⟩
  · rw [List.mem_append, not_or]
    exact ⟨by decide, h.2⟩

theorem tokenMarker_injective : Function.Injective tokenMarker := by
  intro t u h
  simpa [tokenMarker] using h

@[simp] theorem tokenMarker_inj {t u : JsString} : tokenMarker t = tokenMarker u ↔ t = u :=
  tokenMarker_injective.eq_iff

theorem textOf_cons (plain : JsString → JsString) (p : Piece) (ps : List Piece) :
    textOf plain (p :: ps) = p.text plain ++ textOf plain ps := rfl

section Pieces

variable {tokens : List JsString}

theorem piecesFrom_eq_drop (n : ℕ) (s : JsString) :
    piecesFrom tokens n s = pieces tokens (s.drop n) := by
  induction s generalizing n with
  | nil => simp [pieces, piecesFrom]
  | cons c s ih =>
    cases n with
    | zero => rfl
    | succ n => rw [piecesFrom, ih, List.drop_succ_cons]

theorem pieces_of_none {c : UInt16} {s : JsString} (h : startsWith tokens (c :: s) = none) :
    pieces tokens (c :: s) = .unit c :: pieces tokens s := by
  rw [pieces, piecesFrom, h]
  rfl

theorem startsWith_eq_some {s t : JsString} (h : startsWith tokens s = some t) :
    t ∈ tokens ∧ ∃ r, s = tokenMarker t ++ r := by
  refine ⟨List.mem_of_find?_eq_some h, ?_⟩
  have hpre : (tokenMarker t).isPrefixOf s = true :=
    List.find?_some (p := fun t => (tokenMarker t).isPrefixOf s) h
  obtain ⟨r, hr⟩ := List.isPrefixOf_iff_prefix.mp hpre
  exact ⟨r, hr.symm⟩

theorem pieces_of_some {t r : JsString} (h : startsWith tokens (tokenMarker t ++ r) = some t) :
    pieces tokens (tokenMarker t ++ r) = .mark t :: pieces tokens r := by
  have hcons : tokenMarker t ++ r = 91 :: ((tokenMarker t).tail ++ r) := rfl
  rw [hcons] at h ⊢
  have hlen : (tokenMarker t).length - 1 = (tokenMarker t).tail.length := by simp
  rw [pieces, piecesFrom, h]
  simp only [piecesFrom_eq_drop, hlen, List.drop_left]

/-- Pieces of a text, by its markers. -/
theorem pieces_induction {motive : JsString → List Piece → Prop} (nil : motive [] [])
    (mark : ∀ t ∈ tokens, ∀ r, motive r (pieces tokens r) →
      motive (tokenMarker t ++ r) (.mark t :: pieces tokens r))
    (unit : ∀ c s, (∀ t ∈ tokens, ¬tokenMarker t <+: c :: s) → motive s (pieces tokens s) →
      motive (c :: s) (.unit c :: pieces tokens s)) (s : JsString) :
    motive s (pieces tokens s) := by
  induction hn : s.length using Nat.strong_induction_on generalizing s with
  | _ n ih =>
    cases s with
    | nil => exact nil
    | cons c s =>
      rcases h : startsWith tokens (c :: s) with _ | t
      · rw [pieces_of_none h]
        refine unit c s (fun t ht hpre => ?_) (ih s.length (by rw [← hn]; simp) s rfl)
        have hnone := List.find?_eq_none.mp h t ht
        exact hnone (List.isPrefixOf_iff_prefix.mpr hpre)
      · obtain ⟨ht, r, hr⟩ := startsWith_eq_some h
        have hlt : r.length < n := by
          rw [← hn, hr]
          simp [tokenMarker, js]
          omega
        rw [hr] at h ⊢
        rw [pieces_of_some h]
        exact mark t ht r (ih _ hlt r rfl)

/-- With its markers the pieces are the text. -/
theorem textOf_pieces (s : JsString) : textOf tokenMarker (pieces tokens s) = s := by
  refine pieces_induction (motive := fun s ps => textOf tokenMarker ps = s) rfl
    (fun t _ r ih => ?_) (fun c s _ ih => ?_) s
  · rw [textOf_cons, ih]
    rfl
  · rw [textOf_cons, ih]
    rfl

/-- Every marker of a mapped token is a piece. -/
theorem occurrences_eq_count (htokens : ∀ t ∈ tokens, IsPlain t) {t : JsString} (ht : t ∈ tokens)
    (s : JsString) :
    occurrences (tokenMarker t) s = (pieces tokens s).count (.mark t) := by
  refine pieces_induction (motive := fun s ps => occurrences (tokenMarker t) s =
    ps.count (.mark t)) rfl (fun u hu r ih => ?_) (fun c s hnone ih => ?_) s
  · rw [occurrences_marker (isMarker_tokenMarker (htokens t ht))
      (isMarker_tokenMarker (htokens u hu)), ih, List.count_cons]
    by_cases h : t = u
    · simp [h, Nat.add_comm]
    · simp [h, Ne.symm h]
  · rw [occurrences_cons, if_neg (hnone t ht), ih, List.count_cons]
    simp

theorem mem_of_mark_mem {u : JsString} (s : JsString) (h : .mark u ∈ pieces tokens s) :
    u ∈ tokens := by
  revert h
  refine pieces_induction (motive := fun _ ps => .mark u ∈ ps → u ∈ tokens) (by simp)
    (fun t ht r ih h => ?_) (fun c s _ ih h => ih (by simpa using h)) s
  rcases List.mem_cons.mp h with heq | h
  · obtain rfl : u = t := Piece.mark.inj heq
    exact ht
  · exact ih h

end Pieces

/-! ### One step -/

section Step

variable {f g : JsString → JsString} {t : JsString}

/-- The markers of a token that are pieces stand in the text. -/
theorem count_le_occurrences (ht : IsPlain t) (hf : f t = tokenMarker t) (ps : List Piece)
    (x : JsString) : ps.count (.mark t) ≤ occurrences (tokenMarker t) (x ++ textOf f ps) := by
  induction ps generalizing x with
  | nil => simp
  | cons p ps ih =>
    rw [textOf_cons]
    by_cases hp : p = .mark t
    · subst hp
      have hjoin := occurrences_append_le (w := tokenMarker t) x
        (tokenMarker t ++ textOf f ps)
      rw [occurrences_marker (isMarker_tokenMarker ht) (isMarker_tokenMarker ht), if_pos rfl]
        at hjoin
      have := ih []
      rw [List.nil_append] at this
      rw [List.count_cons_self, Piece.text, hf]
      omega
    · rw [List.count_cons_of_ne hp, ← List.append_assoc]
      exact ih _

/-- Where every marker is a piece, one step replaces those and no others. -/
theorem replaceAll_textOf (ht : IsPlain t) (hf : f t = tokenMarker t)
    (hfg : ∀ u, u ≠ t → g u = f u) (ps : List Piece) (x : JsString)
    (h : occurrences (tokenMarker t) (x ++ textOf f ps) = ps.count (.mark t)) :
    replaceAll (tokenMarker t) (g t) (x ++ textOf f ps) = x ++ textOf g ps := by
  have hmarker := isMarker_tokenMarker ht
  induction ps generalizing x with
  | nil => exact replaceAll_of_occurrences h _
  | cons p ps ih =>
    rw [textOf_cons] at h ⊢
    rw [textOf_cons]
    cases p with
    | unit c =>
      rw [List.count_cons_of_ne (by simp), ← List.append_assoc] at h
      rw [← List.append_assoc, ← List.append_assoc]
      exact ih _ h
    | mark u =>
      by_cases hu : u = t
      · subst hu
        rw [List.count_cons_self, Piece.text, hf] at h
        rw [Piece.text, Piece.text, hf]
        have hopen : tokenMarker u ++ textOf f ps =
            91 :: ((tokenMarker u).tail ++ textOf f ps) := rfl
        have hsplit := occurrences_append_open hmarker x ((tokenMarker u).tail ++ textOf f ps)
        rw [← hopen, occurrences_marker hmarker hmarker, if_pos rfl] at hsplit
        have hle := count_le_occurrences ht hf ps []
        rw [List.nil_append] at hle
        have hx : occurrences (tokenMarker u) x = 0 := by omega
        have hrest := ih [] (by rw [List.nil_append]; omega)
        rw [List.nil_append, List.nil_append] at hrest
        rw [hopen, replaceAll_append_open hmarker, ← hopen, replaceAll_of_occurrences hx,
          replaceAll_marker hmarker.ne_nil, hrest]
      · rw [List.count_cons_of_ne (by simpa using hu), ← List.append_assoc] at h
        rw [Piece.text, Piece.text, hfg u hu, ← List.append_assoc, ← List.append_assoc]
        exact ih _ h

/-- Restoring more tokens makes no marker go away. -/
theorem occurrences_textOf_mono (ht : IsPlain t) (ps : List Piece)
    (hplain : ∀ u, .mark u ∈ ps → IsPlain u) (htt : g t = f t)
    (hfg : ∀ u, g u = f u ∨ f u = tokenMarker u) (x : JsString) :
    occurrences (tokenMarker t) (x ++ textOf f ps) ≤
      occurrences (tokenMarker t) (x ++ textOf g ps) := by
  have hmarker := isMarker_tokenMarker ht
  induction ps generalizing x with
  | nil => exact le_rfl
  | cons p ps ih =>
    have hrest : ∀ u, .mark u ∈ ps → IsPlain u := fun u hu =>
      hplain u (List.mem_cons_of_mem p hu)
    rw [textOf_cons, textOf_cons]
    cases p with
    | unit c =>
      rw [← List.append_assoc, ← List.append_assoc]
      exact ih hrest _
    | mark u =>
      by_cases hu : g u = f u
      · rw [Piece.text, Piece.text, hu, ← List.append_assoc, ← List.append_assoc]
        exact ih hrest _
      · have hmark := (hfg u).resolve_left hu
        have hne : t ≠ u := fun heq => hu (heq ▸ htt)
        have hopen : tokenMarker u ++ textOf f ps =
            91 :: ((tokenMarker u).tail ++ textOf f ps) := rfl
        have hsplit := occurrences_append_open hmarker x ((tokenMarker u).tail ++ textOf f ps)
        rw [← hopen, occurrences_marker hmarker
          (isMarker_tokenMarker (hplain u (by simp))), if_neg (by simpa using hne)] at hsplit
        have hle := ih hrest []
        rw [List.nil_append, List.nil_append] at hle
        have hjoin := occurrences_append_le (w := tokenMarker t) (g u) (textOf g ps)
        have hjoin' := occurrences_append_le (w := tokenMarker t) x (g u ++ textOf g ps)
        rw [Piece.text, Piece.text, hmark]
        omega

end Step

/-! ### The loop -/

section Entries

variable {entries : List (JsString × JsString)} {t : JsString}

theorem plaintextOf_of_not_mem (h : t ∉ entries.map Prod.fst) :
    plaintextOf entries t = tokenMarker t := by
  have hnone : entries.lookup t = none := by
    rw [List.lookup_eq_none_iff]
    intro e he
    simp only [bne_iff_ne, ne_eq]
    rintro rfl
    exact h (List.mem_map_of_mem he)
  rw [plaintextOf, hnone]
  rfl

theorem lookup_of_mem (hn : (entries.map Prod.fst).Nodup) {p : JsString} (h : (t, p) ∈ entries) :
    entries.lookup t = some p := by
  induction entries with
  | nil => cases h
  | cons e es ih =>
    rw [List.map_cons, List.nodup_cons] at hn
    rcases List.mem_cons.mp h with rfl | h
    · exact List.lookup_cons_self
    · have hne : t ≠ e.1 := fun heq => hn.1 (heq ▸ List.mem_map_of_mem (f := Prod.fst) h)
      have hbeq : (t == e.1) = false := by simpa using hne
      rw [List.lookup_cons, hbeq]
      exact ih hn.2 h

theorem plaintextOf_of_mem (hn : (entries.map Prod.fst).Nodup) {p : JsString}
    (h : (t, p) ∈ entries) : plaintextOf entries t = p := by
  rw [plaintextOf, lookup_of_mem hn h]
  rfl

theorem plaintextOf_perm {entries' : List (JsString × JsString)} (h : entries.Perm entries')
    (hn : (entries.map Prod.fst).Nodup) : plaintextOf entries = plaintextOf entries' := by
  have hn' : (entries'.map Prod.fst).Nodup := (h.map Prod.fst).nodup_iff.mp hn
  funext t
  by_cases ht : t ∈ entries.map Prod.fst
  · obtain ⟨⟨t, p⟩, he, rfl⟩ := List.mem_map.mp ht
    rw [plaintextOf_of_mem hn he, plaintextOf_of_mem hn' (h.mem_iff.mp he)]
  · rw [plaintextOf_of_not_mem ht,
      plaintextOf_of_not_mem fun h' => ht ((h.map Prod.fst).mem_iff.mpr h')]

theorem plaintextOf_append {e : JsString × JsString} (h : e.1 ∉ entries.map Prod.fst) :
    plaintextOf (entries ++ [e]) e.1 = e.2 ∧
      ∀ u, u ≠ e.1 → plaintextOf (entries ++ [e]) u = plaintextOf entries u := by
  have hnone : entries.lookup e.1 = none := by
    rw [List.lookup_eq_none_iff]
    intro e' he'
    simp only [bne_iff_ne, ne_eq]
    exact fun heq => h (heq ▸ List.mem_map_of_mem he')
  obtain ⟨t, p⟩ := e
  refine ⟨by simp [plaintextOf, List.lookup_append, hnone], fun u hu => ?_⟩
  have hbeq : (u == t) = false := by simpa using hu
  simp [plaintextOf, List.lookup_append, hbeq]

end Entries

section Loop

variable (m : TokenValues) (s : JsString)

theorem TokenValues.isPlain {t : JsString} (h : t ∈ m.tokens) : IsPlain t := by
  obtain ⟨e, he, rfl⟩ := List.mem_map.mp h
  exact m.plain e he

/-- Restoring the other tokens makes no further marker of a token. -/
def NoFurther : Prop := ∀ e ∈ m.entries,
  occurrences (tokenMarker e.1) (m.substituteExcept e.1 s) = occurrences (tokenMarker e.1) s

variable {m s}

/-- What stands behind the entries that are done: the next one is none of them. -/
theorem next_entry {pre post : List (JsString × JsString)} {e : JsString × JsString}
    (h : (pre ++ e :: post).Perm m.entries) :
    e ∈ m.entries ∧ e.1 ∈ m.tokens ∧ e.1 ∉ pre.map Prod.fst := by
  have he : e ∈ m.entries := h.mem_iff.mp (by simp)
  have hn : ((pre ++ e :: post).map Prod.fst).Nodup := (h.map Prod.fst).nodup_iff.mpr m.nodup
  refine ⟨he, List.mem_map_of_mem he, fun hmem => ?_⟩
  rw [List.map_append, List.nodup_append] at hn
  exact hn.2.2 e.1 hmem e.1 (by simp) rfl

/-- A step that replaces only markers of the original text restores one more token. -/
theorem step_textOf {pre post : List (JsString × JsString)} {e : JsString × JsString}
    (h : (pre ++ e :: post).Perm m.entries)
    (hcount : occurrences (tokenMarker e.1) (textOf (plaintextOf pre) (pieces m.tokens s)) =
      occurrences (tokenMarker e.1) s) :
    replaceAll (tokenMarker e.1) e.2 (textOf (plaintextOf pre) (pieces m.tokens s)) =
      textOf (plaintextOf (pre ++ [e])) (pieces m.tokens s) := by
  obtain ⟨-, htoken, hnot⟩ := next_entry h
  obtain ⟨hself, hother⟩ := plaintextOf_append hnot
  rw [occurrences_eq_count (fun _ => m.isPlain) htoken s] at hcount
  have hstep := replaceAll_textOf (m.isPlain htoken) (plaintextOf_of_not_mem hnot) hother
    (pieces m.tokens s) [] (by rwa [List.nil_append])
  rwa [List.nil_append, List.nil_append, hself] at hstep

/-- Where no further markers are made, every order of the loop is the substitution. -/
theorem loop_of_noFurther (hno : NoFurther m s) {pre post : List (JsString × JsString)}
    (h : (pre ++ post).Perm m.entries) :
    EachOriginal s (textOf (plaintextOf pre) (pieces m.tokens s)) post ∧
      restoreText post (textOf (plaintextOf pre) (pieces m.tokens s)) =
        textOf (plaintextOf (pre ++ post)) (pieces m.tokens s) := by
  induction post generalizing pre with
  | nil => exact ⟨trivial, by rw [List.append_nil]; rfl⟩
  | cons e post ih =>
    obtain ⟨he, htoken, hnot⟩ := next_entry h
    have hn : ((pre ++ e :: post).map Prod.fst).Nodup := (h.map Prod.fst).nodup_iff.mpr m.nodup
    have hcount : occurrences (tokenMarker e.1)
        (textOf (plaintextOf pre) (pieces m.tokens s)) = occurrences (tokenMarker e.1) s := by
      have hlower := count_le_occurrences (m.isPlain htoken) (plaintextOf_of_not_mem hnot)
        (pieces m.tokens s) []
      have hupper := occurrences_textOf_mono (f := plaintextOf pre) (g := m.plaintextExcept e.1)
        (m.isPlain htoken) (pieces m.tokens s) (fun u hu => m.isPlain (mem_of_mark_mem s hu))
        (by rw [TokenValues.plaintextExcept, if_pos rfl, plaintextOf_of_not_mem hnot])
        (fun u => ?_) []
      · rw [List.nil_append, ← occurrences_eq_count (fun _ => m.isPlain) htoken] at hlower
        rw [List.nil_append, List.nil_append, ← TokenValues.substituteExcept, hno e he] at hupper
        exact le_antisymm hupper hlower
      · by_cases hu : u ∈ pre.map Prod.fst
        · left
          obtain ⟨⟨u, p⟩, hmem, rfl⟩ := List.mem_map.mp hu
          have hne : u ≠ e.1 := fun heq => hnot (heq ▸ hu)
          rw [TokenValues.plaintextExcept, if_neg hne, ← plaintextOf_perm h hn,
            plaintextOf_of_mem hn (List.mem_append_left _ hmem)]
          rw [List.map_append] at hn
          exact (plaintextOf_of_mem hn.of_append_left hmem).symm
        · exact .inr (plaintextOf_of_not_mem hu)
    have happend : pre ++ e :: post = (pre ++ [e]) ++ post := by simp
    obtain ⟨horiginal, hresult⟩ := @ih (pre ++ [e]) (by rwa [← happend])
    rw [← step_textOf h hcount] at horiginal hresult
    exact ⟨⟨hcount, horiginal⟩, by rw [happend, ← hresult]; rfl⟩

/-- In an order whose steps replace only original markers, the last step finds the text
with all other tokens restored. -/
theorem count_of_eachOriginal {pre mid : List (JsString × JsString)} {e : JsString × JsString}
    (h : (pre ++ (mid ++ [e])).Perm m.entries)
    (horiginal : EachOriginal s (textOf (plaintextOf pre) (pieces m.tokens s)) (mid ++ [e])) :
    occurrences (tokenMarker e.1) (textOf (plaintextOf (pre ++ mid)) (pieces m.tokens s)) =
      occurrences (tokenMarker e.1) s := by
  induction mid generalizing pre with
  | nil =>
    rw [List.append_nil]
    exact horiginal.1
  | cons e' mid ih =>
    have happend : pre ++ (e' :: mid ++ [e]) = (pre ++ [e']) ++ (mid ++ [e]) := by simp
    have hstep := step_textOf (show (pre ++ e' :: (mid ++ [e])).Perm m.entries from h) horiginal.1
    have hlast := @ih (pre ++ [e']) (by rwa [← happend]) (hstep ▸ horiginal.2)
    rwa [List.append_assoc] at hlast

theorem textOf_start : textOf (plaintextOf []) (pieces m.tokens s) = s := textOf_pieces s

/-- The plaintexts of all entries but one. -/
theorem plaintextOf_erase {e : JsString × JsString} (he : e ∈ m.entries) :
    plaintextOf (m.entries.erase e) = m.plaintextExcept e.1 := by
  have hperm := List.perm_cons_erase he
  have hn := (hperm.map Prod.fst).nodup_iff.mp m.nodup
  rw [List.map_cons, List.nodup_cons] at hn
  funext u
  rw [TokenValues.plaintextExcept]
  by_cases hu : u = e.1
  · rw [if_pos hu, hu, plaintextOf_of_not_mem hn.1]
  · rw [if_neg hu]
    by_cases hmem : u ∈ (m.entries.erase e).map Prod.fst
    · obtain ⟨⟨u, p⟩, hp, rfl⟩ := List.mem_map.mp hmem
      rw [plaintextOf_of_mem hn.2 hp, plaintextOf_of_mem m.nodup (List.mem_of_mem_erase hp)]
    · have hnot : u ∉ m.entries.map Prod.fst := by
        rw [(hperm.map Prod.fst).mem_iff, List.map_cons, List.mem_cons, not_or]
        exact ⟨hu, hmem⟩
      rw [plaintextOf_of_not_mem hmem, plaintextOf_of_not_mem hnot]

/-- Original markers only, in every order, means no further markers. -/
theorem noFurther_of_eachOriginal
    (h : ∀ order, order.Perm m.entries → EachOriginal s s order) : NoFurther m s := by
  intro e he
  have hperm : (m.entries.erase e ++ [e]).Perm m.entries :=
    (List.perm_append_singleton e _).trans (List.perm_cons_erase he).symm
  have horiginal := h _ hperm
  have hcount := count_of_eachOriginal (show ([] ++ (m.entries.erase e ++ [e])).Perm m.entries from hperm)
    (by rwa [textOf_start])
  rwa [List.nil_append, plaintextOf_erase he] at hcount

theorem restoreText_of_noFurther (hno : NoFurther m s) {order : List (JsString × JsString)}
    (h : order.Perm m.entries) :
    EachOriginal s s order ∧ restoreText order s = m.substitute s := by
  have hloop := loop_of_noFurther hno (show ([] ++ order).Perm m.entries from h)
  rw [textOf_start, List.nil_append] at hloop
  refine ⟨hloop.1, hloop.2.trans ?_⟩
  rw [TokenValues.substitute, plaintextOf_perm h ((h.map Prod.fst).nodup_iff.mpr m.nodup)]

end Loop

/-! ### Values -/

mutual

/-- The texts of a value: its leaves and keys. -/
def texts : JsValue ν → List JsString
  | .str s => [s]
  | .arr items => itemTexts items
  | .obj fields => fieldTexts fields
  | _ => []

def itemTexts : List (JsValue ν) → List JsString
  | [] => []
  | v :: vs => texts v ++ itemTexts vs

def fieldTexts : List (JsString × JsValue ν) → List JsString
  | [] => []
  | (k, v) :: fs => k :: (texts v ++ fieldTexts fs)

end

namespace TokenValues

variable (m : TokenValues)

mutual

/-- The substitution in every leaf and key; an object keeps all its entries. -/
def substituteTokens : JsValue ν → JsValue ν
  | .str s => .str (m.substitute s)
  | .arr items => .arr (substituteItems items)
  | .obj fields => .obj (substituteFields fields)
  | v => v

def substituteItems : List (JsValue ν) → List (JsValue ν)
  | [] => []
  | v :: vs => substituteTokens v :: substituteItems vs

def substituteFields : List (JsString × JsValue ν) → List (JsString × JsValue ν)
  | [] => []
  | (k, v) :: fs => (m.substitute k, substituteTokens v) :: substituteFields fs

end

mutual

/-- The keys of every object restore to distinct texts. -/
def KeysDistinct : JsValue ν → Prop
  | .arr items => ItemsDistinct items
  | .obj fields => (fields.map fun kv => m.substitute kv.1).Nodup ∧ FieldsDistinct fields
  | _ => True

def ItemsDistinct : List (JsValue ν) → Prop
  | [] => True
  | v :: vs => KeysDistinct v ∧ ItemsDistinct vs

def FieldsDistinct : List (JsString × JsValue ν) → Prop
  | [] => True
  | (_, v) :: fs => KeysDistinct v ∧ FieldsDistinct fs

end

end TokenValues

theorem fromEntries_nodup (entries : List (JsString × JsValue ν)) :
    ((fromEntries entries).map Prod.fst).Nodup := by
  have hfold : ∀ (es fields : List (JsString × JsValue ν)), (fields.map Prod.fst).Nodup →
      ((es.foldl (fun fields e => setField e.1 e.2 fields) fields).map Prod.fst).Nodup := by
    intro es
    induction es with
    | nil => exact fun _ h => h
    | cons e es ih => exact fun fields h => ih _ (nodup_setField e.1 e.2 h)
  exact hfold entries [] List.nodup_nil

/-- Entries with distinct names all stay. -/
theorem fromEntries_of_nodup {entries : List (JsString × JsValue ν)}
    (h : (entries.map Prod.fst).Nodup) : fromEntries entries = entries := by
  have hfold : ∀ es fields : List (JsString × JsValue ν), ((fields ++ es).map Prod.fst).Nodup →
      es.foldl (fun fields e => setField e.1 e.2 fields) fields = fields ++ es := by
    intro es
    induction es with
    | nil => exact fun fields _ => (List.append_nil fields).symm
    | cons e es ih =>
      intro fields hn
      have hnot : e.1 ∉ fields.map Prod.fst := by
        rw [List.map_append, List.nodup_append] at hn
        exact fun hmem => hn.2.2 e.1 hmem e.1 (by simp) rfl
      have happend : fields ++ e :: es = (fields ++ [e]) ++ es := by simp
      rw [List.foldl_cons, setField, if_neg hnot, ih _ (by rwa [← happend]), ← happend]
  exact hfold entries [] h

section Values

variable {m : TokenValues} {order : List (JsString × JsString)}

theorem restoreItems_iff {items : List (JsValue ν)}
    (ih : ∀ v ∈ items, (∀ s ∈ texts v, restoreText order s = m.substitute s) →
      (restoreTokens order v = m.substituteTokens v ↔ m.KeysDistinct v))
    (h : ∀ s ∈ itemTexts items, restoreText order s = m.substitute s) :
    restoreItems order items = m.substituteItems items ↔ m.ItemsDistinct items := by
  induction items with
  | nil => exact iff_of_true rfl trivial
  | cons v vs ihl =>
    simp only [itemTexts, List.forall_mem_append] at h
    rw [List.forall_mem_cons] at ih
    rw [restoreItems, TokenValues.substituteItems, List.cons.injEq, ih.1 h.1, ihl ih.2 h.2]
    rfl

theorem restoreEntries_keys {fields : List (JsString × JsValue ν)}
    (h : ∀ s ∈ fieldTexts fields, restoreText order s = m.substitute s) :
    (restoreEntries order fields).map Prod.fst = fields.map fun kv => m.substitute kv.1 := by
  induction fields with
  | nil => rfl
  | cons kv fs ih =>
    simp only [fieldTexts, List.forall_mem_cons, List.forall_mem_append] at h
    rw [restoreEntries, List.map_cons, List.map_cons, ih h.2.2, h.1]

theorem restoreEntries_iff {fields : List (JsString × JsValue ν)}
    (ih : ∀ kv ∈ fields, (∀ s ∈ texts kv.2, restoreText order s = m.substitute s) →
      (restoreTokens order kv.2 = m.substituteTokens kv.2 ↔ m.KeysDistinct kv.2))
    (h : ∀ s ∈ fieldTexts fields, restoreText order s = m.substitute s) :
    restoreEntries order fields = m.substituteFields fields ↔ m.FieldsDistinct fields := by
  induction fields with
  | nil => exact iff_of_true rfl trivial
  | cons kv fs ihl =>
    simp only [fieldTexts, List.forall_mem_cons, List.forall_mem_append] at h
    rw [List.forall_mem_cons] at ih
    rw [restoreEntries, TokenValues.substituteFields, List.cons.injEq, Prod.mk.injEq,
      ih.1 h.2.1, ihl ih.2 h.2.2]
    exact ⟨fun hd => ⟨hd.1.2, hd.2⟩, fun hd => ⟨⟨h.1, hd.1⟩, hd.2⟩⟩

theorem substituteFields_keys (fields : List (JsString × JsValue ν)) :
    (m.substituteFields fields).map Prod.fst = fields.map fun kv => m.substitute kv.1 := by
  induction fields with
  | nil => rfl
  | cons kv fs ih => rw [TokenValues.substituteFields, List.map_cons, List.map_cons, ih]

/-- Where every text restores to its substitution, the value does exactly when no two
keys meet. -/
theorem restoreTokens_eq_iff (v : JsValue ν)
    (h : ∀ s ∈ texts v, restoreText order s = m.substitute s) :
    restoreTokens order v = m.substituteTokens v ↔ m.KeysDistinct v := by
  induction v using JsValue.induct with
  | undef => exact iff_of_true rfl trivial
  | null => exact iff_of_true rfl trivial
  | bool b => exact iff_of_true rfl trivial
  | num x => exact iff_of_true rfl trivial
  | str s => exact iff_of_true (congrArg JsValue.str (h s (by simp [texts]))) trivial
  | arr items ih =>
    rw [restoreTokens, TokenValues.substituteTokens, JsValue.arr.injEq]
    exact restoreItems_iff ih h
  | obj fields ih =>
    have hkeys := restoreEntries_keys h
    rw [restoreTokens, TokenValues.substituteTokens, JsValue.obj.injEq]
    constructor
    · intro heq
      have hn : (fields.map fun kv => m.substitute kv.1).Nodup := by
        rw [← substituteFields_keys, ← heq]
        exact fromEntries_nodup _
      rw [fromEntries_of_nodup (by rwa [hkeys])] at heq
      exact ⟨hn, (restoreEntries_iff ih h).mp heq⟩
    · rintro ⟨hn, hfields⟩
      rw [fromEntries_of_nodup (by rwa [hkeys])]
      exact (restoreEntries_iff ih h).mpr hfields

end Values

/-- In every order of the tokens each step replaces only original markers, and the result
is the simultaneous substitution with all entries, exactly when restoring the other
tokens makes no further marker of a token in any leaf or key and the keys of every object
restore to distinct texts. -/
theorem restoreTokens_simultaneous_iff (ν : Type) (m : TokenValues) (v : JsValue ν) :
    (∀ order, order.Perm m.entries → (∀ s ∈ texts v, EachOriginal s s order) ∧
        restoreTokens order v = m.substituteTokens v) ↔
      (∀ s ∈ texts v, NoFurther m s) ∧ m.KeysDistinct v := by
  constructor
  · intro h
    have hno : ∀ s ∈ texts v, NoFurther m s := fun s hs =>
      noFurther_of_eachOriginal fun order horder => (h order horder).1 s hs
    refine ⟨hno, (restoreTokens_eq_iff v fun s hs => ?_).mp (h m.entries (List.Perm.refl _)).2⟩
    exact (restoreText_of_noFurther (hno s hs) (List.Perm.refl _)).2
  · rintro ⟨hno, hkeys⟩ order horder
    have hrestore := fun s hs => restoreText_of_noFurther (hno s hs) horder
    exact ⟨fun s hs => (hrestore s hs).1,
      (restoreTokens_eq_iff v fun s hs => (hrestore s hs).2).mpr hkeys⟩

/-- Two tokens of one plaintext. -/
def twice : TokenValues where
  entries := [(js "tok_email_00000000000000aa", js "bob@example.com"),
    (js "tok_email_00000000000000bb", js "bob@example.com")]
  nodup := by decide +kernel
  plain := by decide +kernel

/-- An object whose keys are the markers of the two. -/
def byRecipient : JsValue NumberToken :=
  .obj [(tokenMarker (js "tok_email_00000000000000aa"), .null),
    (tokenMarker (js "tok_email_00000000000000bb"), .bool true)]

/-- Both keys restore to one text, and the first entry is lost. -/
theorem restoreTokens_collides : ¬∀ (m : TokenValues) (v : JsValue NumberToken) order,
    order.Perm m.entries → (∀ s ∈ texts v, EachOriginal s s order) ∧
      restoreTokens order v = m.substituteTokens v := by
  intro h
  have hlost : restoreTokens twice.entries byRecipient =
      .obj [(js "bob@example.com", .bool true)] := by rfl
  have hboth : twice.substituteTokens byRecipient =
      .obj [(js "bob@example.com", .null), (js "bob@example.com", .bool true)] := by rfl
  have heq := (h twice byRecipient twice.entries (List.Perm.refl _)).2
  rw [hlost, hboth] at heq
  cases heq

end Haechi.Proxy
