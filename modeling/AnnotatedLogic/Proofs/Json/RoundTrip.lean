import AnnotatedLogic.Document.Json.Parser
import AnnotatedLogic.Proofs.Json.Scanning
/-!
# What is printed parses to what it was printed from

* `Writable`: documents that a text can hold, and whose numbers are written with numerals that name them.
* `Scans`: the tokens at the front of a text, with what follows them.
* `tokensOf`: the tokens of a document. `Writable.cut`: they are what its text is cut into, and
  `Writable.parses`: the document is what they are put together to.
* `parse_pretty`: so a printed document is read back.
-/

namespace AnnotatedLogic.Document.Json

/-- The numeral that a double is written with names the double. -/
def ReadsBack (x : Float) : Prop :=
  ∃ n : Numeral, scanNumeral (Decimal.Layout.exchange.text x).toList = some (n, []) ∧
    n.toInt? = none ∧ n.toFloat? = some x

/-- A double that can be printed: a finite one, whose numeral names it. -/
structure Printable (x : Float) : Prop where
  finite : x.isFinite = true
  readsBack : ReadsBack x

/-- A document that a text can hold: its counts fit into 64 bits, its other numbers can be printed, and
nothing in it is broken off. -/
inductive Writable : Document → Prop where
  | null : Writable .null
  | bool (b : Bool) : Writable (.bool b)
  | natural {n : Nat} (h : n < 2 ^ 64) : Writable (.integer n)
  | real {x : Float} (h : Printable x) : Writable (.real x)
  | text (s : String) : Writable (.text s)
  | array {items : List Document} (h : ∀ d ∈ items, Writable d) : Writable (.array items)
  | object {fields : List (String × Document)} (h : ∀ f ∈ fields, Writable f.2) :
      Writable (.object fields)

/-! ## Tokens of a document -/

mutual

/-- The tokens that a document is written with. -/
def tokensOf : Document → List Token
  | .null => [.scalar .null]
  | .bool b => [.scalar (.bool b)]
  | .integer n => [.scalar (.integer n)]
  | .real x => [.scalar (.real x)]
  | .text s => [.text (some s)]
  | .array [] => [.openArray, .closeArray]
  | .array (d :: ds) => .openArray :: (tokensOf d ++ itemTokens ds)
  | .object [] => [.openObject, .closeObject]
  | .object ((key, d) :: fs) => .openObject :: .text (some key) :: .colon :: (tokensOf d ++ fieldTokens fs)
  | .broken _ => [.scalar .null]
  | .unreadable => [.scalar .null]

/-- The tokens behind the first item of an array. -/
def itemTokens : List Document → List Token
  | [] => [.closeArray]
  | d :: ds => .comma :: (tokensOf d ++ itemTokens ds)

/-- The tokens behind the first field of an object. -/
def fieldTokens : List (String × Document) → List Token
  | [] => [.closeObject]
  | (key, d) :: fs => .comma :: .text (some key) :: .colon :: (tokensOf d ++ fieldTokens fs)

end

/-! ## Scanning -/

/-- The tokens at the front of a text, with what follows them, whatever fuel is left. -/
def Scans (cs : List Char) (ts : List Token) (rest : List Char) : Prop :=
  ∀ fuel, cs.length ≤ fuel →
    ∃ left, rest.length ≤ left ∧ tokensFrom fuel cs = ts ++ tokensFrom left rest

namespace Scans

variable {cs ds es rest : List Char} {ts us : List Token}

theorem refl (cs : List Char) : Scans cs [] cs := fun fuel h => ⟨fuel, h, rfl⟩

theorem trans (h : Scans cs ts ds) (h' : Scans ds us es) : Scans cs (ts ++ us) es := by
  intro fuel hfuel
  obtain ⟨left, hleft, heq⟩ := h fuel hfuel
  obtain ⟨last, hlast, heq'⟩ := h' left hleft
  exact ⟨last, hlast, by rw [heq, heq', List.append_assoc]⟩

theorem space {c : Char} (hc : isSpace c = true) (h : Scans cs ts rest) : Scans (c :: cs) ts rest := by
  intro fuel hfuel
  cases fuel with
  | zero => cases hfuel
  | succ fuel =>
    rw [tokensFrom, if_pos hc]
    exact h fuel (Nat.le_of_succ_le_succ hfuel)

theorem token {c : Char} {t : Token} (hc : isSpace c = false) (ht : scanToken (c :: cs) = some (t, rest))
    (hle : rest.length ≤ cs.length) : Scans (c :: cs) [t] rest := by
  intro fuel hfuel
  cases fuel with
  | zero => cases hfuel
  | succ fuel =>
    refine ⟨fuel, Nat.le_trans hle (Nat.le_of_succ_le_succ hfuel), ?_⟩
    rw [tokensFrom, hc, ht]
    rfl

/-- One token and then others. -/
theorem cons {c : Char} {t : Token} (hc : isSpace c = false) (ht : scanToken (c :: cs) = some (t, ds))
    (hle : ds.length ≤ cs.length) (h : Scans ds ts rest) : Scans (c :: cs) (t :: ts) rest :=
  (token hc ht hle).trans h

/-- The break before an item is passed over. -/
theorem lineBreak (indent : Option Nat) (h : Scans cs ts rest) :
    Scans (Json.lineBreak indent ++ cs) ts rest := by
  have hblanks (n : Nat) : Scans (List.replicate n ' ' ++ cs) ts rest := by
    induction n with
    | zero => exact h
    | succ n ih => exact ih.space rfl
  cases indent with
  | none => exact h
  | some level => exact (hblanks (2 * level)).space rfl

theorem quoted (s : String) (h : Scans cs ts rest) :
    Scans (Json.quoted s ++ cs) (.text (some s) :: ts) rest :=
  cons rfl (scanToken_quoted s cs) (by simp; omega) h

theorem keySeparator (indent : Option Nat) (h : Scans cs ts rest) :
    Scans (Json.keySeparator indent ++ cs) (.colon :: ts) rest := by
  cases indent with
  | none => exact cons rfl rfl (Nat.le_refl _) h
  | some level => exact cons rfl rfl (Nat.le_refl _) (h.space rfl)

/-- A numeral by itself is one token in front of a mark or a blank. -/
theorem numeral {n : Numeral} (hs : scanNumeral cs = some (n, [])) (hrest : Ends rest) :
    Scans (cs ++ rest) [.scalar n.value] rest := by
  have happ := scanToken_numeral (scanNumeral_append hrest hs)
  obtain ⟨c, cs, rfl, hc⟩ := scanNumeral_head hs
  have hspace : isSpace c = false := by
    rcases hc with rfl | hc
    · rfl
    · refine Bool.eq_false_iff.2 fun h => ?_
      simp only [isSpace, Bool.or_eq_true, beq_iff_eq] at h
      rcases h with ((rfl | rfl) | rfl) | rfl <;> cases hc
  exact token hspace happ (by simp)

/-- The tokens of a text that is scanned to its end. -/
theorem tokens_eq (h : Scans cs ts []) : tokens cs = ts := by
  obtain ⟨left, -, heq⟩ := h cs.length (Nat.le_refl _)
  have hnil : tokensFrom left [] = [] := by cases left <;> rfl
  rw [tokens, heq, hnil, List.append_nil]

end Scans

theorem ends_lineBreak (indent : Option Nat) {rest : List Char} (h : Ends rest) :
    Ends (lineBreak indent ++ rest) := by
  cases indent with
  | none => exact h
  | some level => exact ends_cons rfl (by decide) (by decide) (by decide) _

theorem ends_itemChars (indent outer : Option Nat) (ds : List Document) (rest : List Char) :
    Ends (itemChars indent ds ++ (lineBreak outer ++ ']' :: rest)) := by
  cases ds with
  | nil => exact ends_lineBreak outer (ends_cons rfl (by decide) (by decide) (by decide) rest)
  | cons d ds => exact ends_cons rfl (by decide) (by decide) (by decide) _

theorem ends_fieldChars (indent outer : Option Nat) (fs : List (String × Document)) (rest : List Char) :
    Ends (fieldChars indent fs ++ (lineBreak outer ++ '}' :: rest)) := by
  cases fs with
  | nil => exact ends_lineBreak outer (ends_cons rfl (by decide) (by decide) (by decide) rest)
  | cons f fs => exact ends_cons rfl (by decide) (by decide) (by decide) _

/-- A document is cut into its tokens, wherever no numeral can go on behind it. -/
def Cut (d : Document) : Prop :=
  ∀ indent rest, Ends rest → Scans (chars indent d ++ rest) (tokensOf d) rest

theorem Cut.items {ds : List Document} (h : ∀ d ∈ ds, Cut d) (indent outer : Option Nat)
    (rest : List Char) :
    Scans (itemChars indent ds ++ (lineBreak outer ++ ']' :: rest)) (itemTokens ds) rest := by
  induction ds with
  | nil =>
    rw [itemChars, itemTokens]
    exact Scans.lineBreak outer (.token rfl rfl (Nat.le_refl _))
  | cons d ds ih =>
    have hd := h d List.mem_cons_self indent _ (ends_itemChars indent outer ds rest)
    have hds := ih fun e he => h e (List.mem_cons_of_mem d he)
    rw [itemChars, itemTokens, List.cons_append, List.append_assoc, List.append_assoc]
    exact .cons rfl rfl (Nat.le_refl _) (.lineBreak indent (hd.trans hds))

theorem Cut.fields {fs : List (String × Document)} (h : ∀ f ∈ fs, Cut f.2) (indent outer : Option Nat)
    (rest : List Char) :
    Scans (fieldChars indent fs ++ (lineBreak outer ++ '}' :: rest)) (fieldTokens fs) rest := by
  induction fs with
  | nil =>
    rw [fieldChars, fieldTokens]
    exact Scans.lineBreak outer (.token rfl rfl (Nat.le_refl _))
  | cons f fs ih =>
    obtain ⟨key, d⟩ := f
    have hd := h (key, d) List.mem_cons_self indent _ (ends_fieldChars indent outer fs rest)
    have hfs := ih fun e he => h e (List.mem_cons_of_mem (key, d) he)
    rw [fieldChars, fieldTokens, List.cons_append, List.append_assoc, List.append_assoc,
      List.append_assoc, List.append_assoc]
    exact .cons rfl rfl (Nat.le_refl _)
      (.lineBreak indent (.quoted key (.keySeparator indent (hd.trans hfs))))

theorem Writable.cut {d : Document} (h : Writable d) : Cut d := by
  induction h with
  | null => exact fun indent rest _ => .token rfl rfl (by simp; omega)
  | bool b => cases b <;> exact fun indent rest _ => .token rfl rfl (by simp; omega)
  | @natural n hn =>
    intro indent rest hrest
    have hscan := Scans.numeral (scanNumeral_natural n) hrest
    rw [value_natural hn] at hscan
    have htext : (toString (n : Int)).toList = Nat.toDigits 10 n := by
      rw [Int.toString_eq_repr, Int.repr_eq_if, if_pos (Int.natCast_nonneg n), Int.toNat_natCast,
        Nat.toList_repr]
    rw [chars, tokensOf, htext]
    exact hscan
  | @real x hx =>
    intro indent rest hrest
    obtain ⟨n, hn, hint, hfloat⟩ := hx.readsBack
    have hscan := Scans.numeral hn hrest
    have hvalue : n.value = .real x := by
      unfold Numeral.value
      rw [hint, hfloat]
    rw [hvalue] at hscan
    rw [chars, tokensOf, if_pos hx.finite]
    exact hscan
  | text s => exact fun indent rest _ => .quoted s (.refl rest)
  | @array items _ ih =>
    intro indent rest _
    cases items with
    | nil => exact .cons rfl rfl (by simp) (.token rfl rfl (Nat.le_refl _))
    | cons d ds =>
      have hd := ih d List.mem_cons_self (deeper indent) _
        (ends_itemChars (deeper indent) indent ds rest)
      have hds := Cut.items (fun e he => ih e (List.mem_cons_of_mem d he)) (deeper indent) indent rest
      rw [chars, tokensOf]
      simp only [List.cons_append, List.append_assoc, List.nil_append]
      exact .cons rfl rfl (Nat.le_refl _) (.lineBreak (deeper indent) (hd.trans hds))
  | @object fields _ ih =>
    intro indent rest _
    cases fields with
    | nil => exact .cons rfl rfl (by simp) (.token rfl rfl (Nat.le_refl _))
    | cons f fs =>
      obtain ⟨key, d⟩ := f
      have hd := ih (key, d) List.mem_cons_self (deeper indent) _
        (ends_fieldChars (deeper indent) indent fs rest)
      have hfs := Cut.fields (fun e he => ih e (List.mem_cons_of_mem (key, d) he)) (deeper indent) indent
        rest
      rw [chars, tokensOf]
      simp only [List.cons_append, List.append_assoc, List.nil_append]
      exact .cons rfl rfl (Nat.le_refl _)
        (.lineBreak (deeper indent) (.quoted key (.keySeparator indent (hd.trans hfs))))

/-! ## Parsing -/

/-- The tokens of a document are put together to the document, with fuel for two levels a token. -/
def Parses (d : Document) : Prop :=
  ∀ fuel rest, 2 * (tokensOf d).length ≤ fuel → value fuel (tokensOf d ++ rest) = (d, some rest)

/-- No document starts with the end of an array. -/
theorem tokensOf_head (d : Document) : ∃ t ts, tokensOf d = t :: ts ∧ t ≠ .closeArray := by
  cases d with
  | array items => cases items <;> exact ⟨_, _, rfl, Token.noConfusion⟩
  | object fields => cases fields <;> exact ⟨_, _, rfl, Token.noConfusion⟩
  | _ => exact ⟨_, _, rfl, Token.noConfusion⟩

theorem Parses.items {d : Document} {ds : List Document} (h : ∀ e ∈ d :: ds, Parses e) {fuel : Nat}
    (hfuel : 2 * (tokensOf d ++ itemTokens ds).length ≤ fuel) (rest : List Token) :
    Json.items fuel (tokensOf d ++ (itemTokens ds ++ rest)) = (d :: ds, some rest) := by
  induction ds generalizing d fuel with
  | nil =>
    rw [itemTokens, List.length_append, List.length_singleton] at hfuel
    obtain ⟨fuel, rfl⟩ : ∃ k, fuel = k + 1 := ⟨fuel - 1, by omega⟩
    rw [Json.items, h d List.mem_cons_self fuel _ (by omega)]
    rfl
  | cons e es ih =>
    rw [itemTokens, List.length_append, List.length_cons] at hfuel
    obtain ⟨fuel, rfl⟩ : ∃ k, fuel = k + 1 := ⟨fuel - 1, by omega⟩
    have hes := ih (fun x hx => h x (List.mem_cons_of_mem d hx))
      (show 2 * (tokensOf e ++ itemTokens es).length ≤ fuel by omega)
    rw [Json.items, h d List.mem_cons_self fuel _ (by omega), itemTokens, List.cons_append,
      List.append_assoc]
    simp only [hes]

/-- Fields with their keys, as they are read. -/
def readFields (fs : List (String × Document)) : List (Option String × Document) :=
  fs.map fun f => (some f.1, f.2)

theorem ofFields_readFields (fs : List (String × Document)) : ofFields (readFields fs) = .object fs := by
  have hkeyed : keyed (readFields fs) = fs := by
    induction fs with
    | nil => rfl
    | cons f fs ih => exact congrArg (f :: ·) ih
  have hall : (readFields fs).all (fun f => f.1.isSome) = true := by
    simp [readFields]
  unfold ofFields
  rw [if_pos hall, hkeyed]

theorem Parses.fields {key : String} {d : Document} {fs : List (String × Document)}
    (h : ∀ f ∈ (key, d) :: fs, Parses f.2) {fuel : Nat}
    (hfuel : 2 * (tokensOf d ++ fieldTokens fs).length ≤ fuel) (rest : List Token) :
    Json.fields fuel (.text (some key) :: .colon :: (tokensOf d ++ (fieldTokens fs ++ rest)))
      = (readFields ((key, d) :: fs), some rest) := by
  induction fs generalizing key d fuel with
  | nil =>
    have hd : Parses d := h (key, d) List.mem_cons_self
    rw [fieldTokens, List.length_append, List.length_singleton] at hfuel
    obtain ⟨fuel, rfl⟩ : ∃ k, fuel = k + 1 := ⟨fuel - 1, by omega⟩
    rw [Json.fields, hd fuel _ (by omega)]
    rfl
  | cons f fs ih =>
    obtain ⟨other, e⟩ := f
    have hd : Parses d := h (key, d) List.mem_cons_self
    rw [fieldTokens, List.length_append, List.length_cons, List.length_cons, List.length_cons] at hfuel
    obtain ⟨fuel, rfl⟩ : ∃ k, fuel = k + 1 := ⟨fuel - 1, by omega⟩
    have hfs := ih (fun x hx => h x (List.mem_cons_of_mem (key, d) hx))
      (show 2 * (tokensOf e ++ fieldTokens fs).length ≤ fuel by omega)
    rw [Json.fields, hd fuel _ (by omega), fieldTokens]
    simp only [List.cons_append, List.append_assoc, hfs]
    rfl

theorem Writable.parses {d : Document} (h : Writable d) : Parses d := by
  have hfuel {n fuel : Nat} (hle : 2 * (n + 1) ≤ fuel) : ∃ k, fuel = k + 1 ∧ 2 * n ≤ k :=
    ⟨fuel - 1, by omega, by omega⟩
  induction h with
  | null | bool | natural | real | text =>
    intro fuel rest hle
    obtain ⟨fuel, rfl, -⟩ := hfuel hle
    rfl
  | @array items _ ih =>
    intro fuel rest hle
    cases items with
    | nil =>
      obtain ⟨fuel, rfl, -⟩ := hfuel hle
      rfl
    | cons d ds =>
      rw [tokensOf, List.length_cons] at hle
      obtain ⟨fuel, rfl, hrest⟩ := hfuel hle
      obtain ⟨t, ts, hhead, ht⟩ := tokensOf_head d
      have hitems := Parses.items ih hrest rest
      rw [tokensOf, List.cons_append, List.append_assoc]
      rw [hhead] at hitems ⊢
      rw [List.cons_append] at hitems ⊢
      rw [value]
      · rw [hitems]
      · exact fun _ heq => ht (List.cons.inj heq).1
  | @object fields _ ih =>
    intro fuel rest hle
    cases fields with
    | nil =>
      obtain ⟨fuel, rfl, -⟩ := hfuel hle
      rfl
    | cons f fs =>
      obtain ⟨key, d⟩ := f
      rw [tokensOf, List.length_cons] at hle
      obtain ⟨fuel, rfl, hrest⟩ := hfuel hle
      rw [List.length_cons, List.length_cons] at hrest
      have henough : 2 * (tokensOf d ++ fieldTokens fs).length ≤ fuel := by omega
      have hfields := Parses.fields ih henough rest
      rw [tokensOf]
      simp only [List.cons_append, List.append_assoc]
      rw [value, hfields]
      · exact congrArg (·, some rest) (ofFields_readFields _)
      · exact nofun

/-- A document that is printed is read back, and the text is JSON to its end. -/
theorem parse_pretty {d : Document} (h : Writable d) : parse (pretty d) = (d, true) := by
  have hcut : Scans (chars (some 0) d) (tokensOf d) [] := by
    have hscan := h.cut (some 0) [] ends_nil
    rwa [List.append_nil] at hscan
  have hvalue := h.parses (2 * (tokensOf d).length + 1) [] (by omega)
  rw [List.append_nil] at hvalue
  unfold parse pretty
  rw [String.toList_ofList, hcut.tokens_eq]
  dsimp only
  rw [hvalue]

end AnnotatedLogic.Document.Json
