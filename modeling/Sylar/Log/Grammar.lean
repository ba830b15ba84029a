import Sylar.Log.Formatter

/-! # The grammar of patterns

A pattern is a sequence of literal characters and directives, with or without an argument.
The scanner accepts the patterns of the grammar and no others without `%%`, and turns each
into the items of its elements, with the literals of a run in one string.
-/

namespace Sylar.Log

/-! ## Elements -/

/-- The key of the class in `s_format_items`. -/
def ItemClass.letter : ItemClass → Char
  | .message => 'm'
  | .level => 'p'
  | .elapse => 'r'
  | .name => 'c'
  | .threadId => 't'
  | .newLine => 'n'
  | .dateTime => 'd'
  | .filename => 'f'
  | .line => 'l'
  | .tab => 'T'
  | .fiberId => 'F'
  | .threadName => 'N'

theorem formatItems_eq_some {str : List Char} {cls : ItemClass} :
    formatItems str = some cls ↔ str = [cls.letter] := by
  constructor
  · intro h
    unfold formatItems at h
    split at h <;> cases h <;> rfl
  · rintro rfl
    cases cls <;> rfl

/-- A literal character, `%x` or `%x{fmt}`. -/
inductive Element where
  | literal (c : Char)
  | bare (cls : ItemClass)
  | withFmt (cls : ItemClass) (fmt : List Char)
  deriving DecidableEq, Repr

def Element.render : Element → List Char
  | .literal c => [c]
  | .bare cls => ['%', cls.letter]
  | .withFmt cls fmt => '%' :: cls.letter :: '{' :: (fmt ++ ['}'])

def render (es : List Element) : List Char := es.flatMap Element.render

@[simp] theorem render_nil : render [] = [] := rfl

@[simp] theorem render_cons (e : Element) (es : List Element) :
    render (e :: es) = e.render ++ render es := rfl

/-- What may follow a bare directive: the end, or no letter and no brace. -/
def Ends : List Char → Prop
  | [] => True
  | c :: _ => isalpha c = false ∧ c ≠ '{' ∧ c ≠ '}'

def WellFormed : List Element → Prop
  | [] => True
  | .literal c :: es => c ≠ '%' ∧ WellFormed es
  | .bare _ :: es => Ends (render es) ∧ WellFormed es
  | .withFmt _ fmt :: es => '}' ∉ fmt ∧ WellFormed es

/-- What the scan reads in front of `follow`: there a literal `%` stands before another one. -/
def Reads (follow : List Char) : List Element → Prop
  | [] => True
  | .literal c :: es => (c = '%' → (render es ++ follow).head? = some '%') ∧ Reads follow es
  | .bare _ :: es => Ends (render es ++ follow) ∧ Reads follow es
  | .withFmt _ fmt :: es => '}' ∉ fmt ∧ Reads follow es

theorem WellFormed.reads {es : List Element} (hes : WellFormed es) : Reads [] es := by
  induction es with
  | nil => trivial
  | cons e es ih =>
      cases e with
      | literal c => exact ⟨fun hc => absurd hc hes.1, ih hes.2⟩
      | bare cls => exact ⟨by rw [List.append_nil]; exact hes.1, ih hes.2⟩
      | withFmt cls fmt => exact ⟨hes.1, ih hes.2⟩

theorem Reads.wellFormed {es : List Element} (hes : Reads [] es)
    (hpercent : ¬ ['%', '%'] <:+: render es) : WellFormed es := by
  induction es with
  | nil => trivial
  | cons e es ih =>
      have hrest : ¬ ['%', '%'] <:+: render es :=
        fun h => hpercent (h.trans (List.suffix_append _ _).isInfix)
      cases e with
      | literal c =>
          refine ⟨fun hc => hpercent ?_, ih hes.2 hrest⟩
          obtain ⟨rest, hnext⟩ := List.head?_eq_some_iff.1 (hes.1 hc)
          rw [List.append_nil] at hnext
          exact ⟨[], rest, by rw [render_cons, hnext, hc]; rfl⟩
      | bare cls => exact ⟨by rw [← List.append_nil (render es)]; exact hes.1, ih hes.2 hrest⟩
      | withFmt cls fmt => exact ⟨hes.1, ih hes.2 hrest⟩

instance decidableEnds : (rest : List Char) → Decidable (Ends rest)
  | [] => isTrue trivial
  | c :: _ => inferInstanceAs (Decidable (isalpha c = false ∧ c ≠ '{' ∧ c ≠ '}'))

instance decidableWellFormed : (es : List Element) → Decidable (WellFormed es)
  | [] => isTrue trivial
  | .literal c :: es =>
      have := decidableWellFormed es
      inferInstanceAs (Decidable (c ≠ '%' ∧ WellFormed es))
  | .bare _ :: es =>
      have := decidableWellFormed es
      inferInstanceAs (Decidable (Ends (render es) ∧ WellFormed es))
  | .withFmt _ fmt :: es =>
      have := decidableWellFormed es
      inferInstanceAs (Decidable ('}' ∉ fmt ∧ WellFormed es))

def textItem (run : List Char) : List FormatItem :=
  if run = [] then [] else [.string (String.ofList run)]

/-- The items of a pattern after the literals `run`. -/
def itemsOf (run : List Char) : List Element → List FormatItem
  | [] => textItem run
  | .literal c :: es => itemsOf (run ++ [c]) es
  | .bare cls :: es => textItem run ++ .item cls "" :: itemsOf [] es
  | .withFmt cls fmt :: es => textItem run ++ .item cls (String.ofList fmt) :: itemsOf [] es

/-! ## Reading a directive

`p.drop n` is what the scan has before it.
-/

theorem of_drop_eq_cons {p : List Char} {n : Nat} {c : Char} {rest : List Char}
    (h : p.drop n = c :: rest) : ∃ hn : n < p.length, p[n] = c ∧ p.drop (n + 1) = rest := by
  have hn : n < p.length := by
    by_contra hle
    rw [List.drop_eq_nil_of_le (Nat.not_lt.mp hle)] at h
    cases h
  rw [List.drop_eq_getElem_cons hn] at h
  exact ⟨hn, List.head_eq_of_cons_eq h, List.tail_eq_of_cons_eq h⟩

theorem drop_append_length {p w r : List Char} {n : Nat} (h : p.drop n = w ++ r) :
    p.drop (n + w.length) = r := by
  rw [← List.drop_drop, h, List.drop_left]

/-- The part between two positions of the scan. -/
theorem substr_eq {p w r : List Char} {pos : Nat} (h : p.drop pos = w ++ r) :
    substr p pos w.length = w := by
  rw [substr, h, List.take_left]

def isName (c : Char) : Bool := isalpha c || c = '}'

theorem isName_ne_open {c : Char} (h : isName c = true) : c ≠ '{' := by
  rintro rfl
  revert h
  decide

theorem drop_succ_eq_nil {p : List Char} {n : Nat} {c : Char} {rest : List Char}
    (h : p.drop n = c :: rest) : n + 1 = p.length ↔ rest = [] := by
  obtain ⟨hn, _, hrest⟩ := of_drop_eq_cons h
  rw [← hrest, List.drop_eq_nil_iff]
  omega

/-- A character of the name; at the end of the pattern the name is what follows the `%`. -/
theorem scanDirective_name_step {p rest : List Char} {i n : Nat} {c : Char}
    (hp : p.drop n = c :: rest) (hc : isName c = true) :
    scanDirective p i ⟨n, false, 0, [], []⟩ =
      scanDirective p i ⟨n + 1, false, 0, if rest = [] then p.drop (i + 1) else [], []⟩ := by
  obtain ⟨hn, hget, _⟩ := of_drop_eq_cons hp
  have hplain : ¬ (isalpha c = false ∧ c ≠ '{' ∧ c ≠ '}') := by
    rintro ⟨halpha, _, hclose⟩
    simp [isName, halpha, hclose] at hc
  rw [scanDirective, dif_pos hn]
  simp only [hget, true_and, Bool.not_eq_true, if_neg hplain, if_neg (isName_ne_open hc),
    Bool.false_eq_true, false_and, if_false, drop_succ_eq_nil hp, and_true]

theorem scanDirective_name {p w r : List Char} {i n : Nat} (hp : p.drop n = w ++ r)
    (hw : ∀ c ∈ w, isName c = true) (hr : r ≠ []) :
    scanDirective p i ⟨n, false, 0, [], []⟩ =
      scanDirective p i ⟨n + w.length, false, 0, [], []⟩ := by
  induction w generalizing n with
  | nil => rfl
  | cons c w ih =>
      have hne : w ++ r ≠ [] := fun h => hr (List.append_eq_nil_iff.mp h).2
      rw [List.cons_append] at hp
      obtain ⟨_, _, hrest⟩ := of_drop_eq_cons hp
      rw [scanDirective_name_step hp (hw c List.mem_cons_self), if_neg hne,
        ih hrest fun d hd => hw d (List.mem_cons_of_mem c hd)]
      simp only [List.length_cons, Nat.add_assoc, Nat.add_comm 1]

theorem scanDirective_end (p : List Char) (i : Nat) (x : Directive) (hx : p.length ≤ x.n) :
    scanDirective p i x = x := by
  rw [scanDirective, dif_neg (Nat.not_lt.mpr hx)]

theorem scanDirective_name_end {p w : List Char} {i n : Nat} (hp : p.drop n = w) (hne : w ≠ [])
    (hw : ∀ c ∈ w, isName c = true) :
    scanDirective p i ⟨n, false, 0, [], []⟩ = ⟨p.length, false, 0, p.drop (i + 1), []⟩ := by
  obtain ⟨v, c, rfl⟩ := (List.eq_nil_or_concat' w).resolve_left hne
  have hc : p.drop (n + v.length) = [c] := drop_append_length hp
  have hlen := (drop_succ_eq_nil hc).mpr rfl
  rw [scanDirective_name hp (fun d hd => hw d (List.mem_append_left [c] hd)) (by simp),
    scanDirective_name_step hc (hw c (by simp)), if_pos rfl, hlen,
    scanDirective_end p i _ le_rfl]

theorem scanDirective_stop {p rest : List Char} {i n : Nat} {c : Char}
    (hp : p.drop n = c :: rest) (hc : isalpha c = false ∧ c ≠ '{' ∧ c ≠ '}') :
    scanDirective p i ⟨n, false, 0, [], []⟩ =
      ⟨n, false, 0, substr p (i + 1) (n - i - 1), []⟩ := by
  obtain ⟨hn, hget, _⟩ := of_drop_eq_cons hp
  rw [scanDirective, dif_pos hn]
  simp only [hget, true_and, Bool.not_eq_true, if_pos hc]

theorem scanDirective_open {p rest : List Char} {i n : Nat} (hp : p.drop n = '{' :: rest) :
    scanDirective p i ⟨n, false, 0, [], []⟩ =
      scanDirective p i ⟨n + 1, true, n, substr p (i + 1) (n - i - 1), []⟩ := by
  obtain ⟨hn, hget, _⟩ := of_drop_eq_cons hp
  rw [scanDirective, dif_pos hn]
  simp [hget]

theorem scanDirective_fmt_step {p rest str : List Char} {i n b : Nat} {c : Char}
    (hp : p.drop n = c :: rest) (hc : c ≠ '}') :
    scanDirective p i ⟨n, true, b, str, []⟩ = scanDirective p i
      ⟨n + 1, true, b, if rest = [] ∧ str = [] then p.drop (i + 1) else str, []⟩ := by
  obtain ⟨hn, hget, _⟩ := of_drop_eq_cons hp
  rw [scanDirective, dif_pos hn]
  simp only [hget, Bool.true_eq_false, false_and, if_false, hc, and_false, drop_succ_eq_nil hp]

theorem scanDirective_fmt {p w r str : List Char} {i n b : Nat} (hp : p.drop n = w ++ r)
    (hw : '}' ∉ w) (hr : r ≠ []) :
    scanDirective p i ⟨n, true, b, str, []⟩ =
      scanDirective p i ⟨n + w.length, true, b, str, []⟩ := by
  induction w generalizing n with
  | nil => rfl
  | cons c w ih =>
      have hne : w ++ r ≠ [] := fun h => hr (List.append_eq_nil_iff.mp h).2
      rw [List.cons_append] at hp
      obtain ⟨_, _, hrest⟩ := of_drop_eq_cons hp
      rw [scanDirective_fmt_step hp (List.ne_of_not_mem_cons hw).symm, if_neg fun h => hne h.1,
        ih hrest (List.not_mem_of_not_mem_cons hw)]
      simp only [List.length_cons, Nat.add_assoc, Nat.add_comm 1]

theorem scanDirective_close {p rest str : List Char} {i n b : Nat} (hp : p.drop n = '}' :: rest) :
    scanDirective p i ⟨n, true, b, str, []⟩ =
      ⟨n + 1, false, b, str, substr p (b + 1) (n - b - 1)⟩ := by
  obtain ⟨hn, hget, _⟩ := of_drop_eq_cons hp
  rw [scanDirective, dif_pos hn]
  simp [hget]

/-- Without a closing brace the loop ends inside the argument. -/
theorem scanDirective_unclosed {p w str : List Char} {i n b : Nat} (hp : p.drop n = w)
    (hw : '}' ∉ w) : (scanDirective p i ⟨n, true, b, str, []⟩).fmtStatus = true := by
  induction w generalizing n str with
  | nil => rw [scanDirective_end p i _ (List.drop_eq_nil_iff.mp hp)]
  | cons c w ih =>
      obtain ⟨_, _, hrest⟩ := of_drop_eq_cons hp
      rw [scanDirective_fmt_step hp (List.ne_of_not_mem_cons hw).symm]
      exact ih hrest (List.not_mem_of_not_mem_cons hw)

/-! ## The four ends of a directive -/

section Reading

variable {p d w f rest : List Char} {i : Nat} {c : Char}

theorem scanDirective_bare (hp : p.drop (i + 1) = w ++ c :: rest) (hw : ∀ c ∈ w, isName c = true)
    (hc : isalpha c = false ∧ c ≠ '{' ∧ c ≠ '}') :
    scanDirective p i ⟨i + 1, false, 0, [], []⟩ = ⟨i + 1 + w.length, false, 0, w, []⟩ := by
  have hlen : i + 1 + w.length - i - 1 = w.length := by omega
  rw [scanDirective_name hp hw (List.cons_ne_nil _ _),
    scanDirective_stop (drop_append_length hp) hc, hlen, substr_eq hp]

theorem scanDirective_bare_end (hi : i < p.length) (hp : p.drop (i + 1) = w)
    (hw : ∀ c ∈ w, isName c = true) :
    scanDirective p i ⟨i + 1, false, 0, [], []⟩ = ⟨p.length, false, 0, w, []⟩ := by
  by_cases hne : w = []
  · subst hne
    have hlen : i + 1 = p.length := by
      have hle := List.drop_eq_nil_iff.mp hp
      omega
    rw [scanDirective_end p i _ hlen.ge, hlen]
  · rw [scanDirective_name_end hp hne hw, hp]

theorem scanDirective_arg (hp : p.drop (i + 1) = w ++ '{' :: (f ++ '}' :: rest))
    (hw : ∀ c ∈ w, isName c = true) (hf : '}' ∉ f) :
    scanDirective p i ⟨i + 1, false, 0, [], []⟩ =
      ⟨i + 1 + w.length + 1 + f.length + 1, false, i + 1 + w.length, w, f⟩ := by
  have hopen : p.drop (i + 1 + w.length) = '{' :: (f ++ '}' :: rest) := drop_append_length hp
  obtain ⟨_, _, hfmt⟩ := of_drop_eq_cons hopen
  have hclose : p.drop (i + 1 + w.length + 1 + f.length) = '}' :: rest := drop_append_length hfmt
  have hw' : i + 1 + w.length - i - 1 = w.length := by omega
  have hf' : i + 1 + w.length + 1 + f.length - (i + 1 + w.length) - 1 = f.length := by omega
  rw [scanDirective_name hp hw (List.cons_ne_nil _ _), scanDirective_open hopen, hw', substr_eq hp,
    scanDirective_fmt hfmt hf (List.cons_ne_nil _ _), scanDirective_close hclose, hf',
    substr_eq hfmt]

theorem scanDirective_open_end (hp : p.drop (i + 1) = w ++ '{' :: f)
    (hw : ∀ c ∈ w, isName c = true) (hf : '}' ∉ f) :
    (scanDirective p i ⟨i + 1, false, 0, [], []⟩).fmtStatus = true := by
  have hopen : p.drop (i + 1 + w.length) = '{' :: f := drop_append_length hp
  obtain ⟨_, _, hfmt⟩ := of_drop_eq_cons hopen
  rw [scanDirective_name hp hw (List.cons_ne_nil _ _), scanDirective_open hopen]
  exact scanDirective_unclosed hfmt hf

/-- A directive is unclosed, or bare, or has an argument; the scan stands behind it. -/
theorem scanDirective_cases (hi : i < p.length) {x : Directive}
    (hx : scanDirective p i ⟨i + 1, false, 0, [], []⟩ = x) (hstatus : x.fmtStatus = false) :
    x.fmt = [] ∧ Ends (p.drop x.n) ∧ p.drop (i + 1) = x.str ++ p.drop x.n ∨
      '}' ∉ x.fmt ∧ p.drop (i + 1) = x.str ++ '{' :: (x.fmt ++ '}' :: p.drop x.n) := by
  obtain ⟨w, r, hp, hw, hr⟩ : ∃ w r, p.drop (i + 1) = w ++ r ∧ (∀ c ∈ w, isName c = true) ∧
      ∀ c ∈ r.head?, isName c = false := by
    refine ⟨(p.drop (i + 1)).takeWhile isName, (p.drop (i + 1)).dropWhile isName,
      List.takeWhile_append_dropWhile.symm, fun c hc => List.mem_takeWhile_imp hc, fun c hc => ?_⟩
    have hne := List.head?_dropWhile_not isName (p.drop (i + 1))
    rw [Option.mem_def.mp hc] at hne
    simpa using hne
  cases r with
  | nil =>
      rw [List.append_nil] at hp
      rw [scanDirective_bare_end hi hp hw] at hx
      subst hx
      refine .inl ⟨rfl, ?_, ?_⟩
      · simp [Ends]
      · simp [hp]
  | cons c r =>
      have hc := hr c rfl
      by_cases hbrace : c = '{'
      · subst hbrace
        by_cases hin : '}' ∈ r
        · obtain ⟨f, rest, rfl, hf⟩ := List.eq_append_cons_of_mem hin
          rw [scanDirective_arg hp hw hf] at hx
          subst hx
          have hopen : p.drop (i + 1 + w.length) = '{' :: (f ++ '}' :: rest) :=
            drop_append_length hp
          obtain ⟨_, _, hfmt⟩ := of_drop_eq_cons hopen
          obtain ⟨_, _, hrest⟩ := of_drop_eq_cons (drop_append_length hfmt)
          refine .inr ⟨hf, ?_⟩
          rw [hrest]
          exact hp
        · rw [← hx, scanDirective_open_end hp hw hin] at hstatus
          cases hstatus
      · have hends : isalpha c = false ∧ c ≠ '{' ∧ c ≠ '}' := by
          simp only [isName, Bool.or_eq_false_iff, decide_eq_false_iff_not] at hc
          exact ⟨hc.1, hbrace, hc.2⟩
        rw [scanDirective_bare hp hw hends] at hx
        subst hx
        have hrest := drop_append_length hp
        refine .inl ⟨rfl, ?_, ?_⟩
        · rw [hrest]
          exact hends
        · rw [hrest]
          exact hp

end Reading

/-! ## The outer loop -/

/-- The pieces of a pattern after the literals `run`. -/
def piecesOf (run : List Char) : List Element → List Piece
  | [] => flush run
  | .literal c :: es => piecesOf (run ++ [c]) es
  | .bare cls :: es => flush run ++ ⟨[cls.letter], [], true⟩ :: piecesOf [] es
  | .withFmt cls fmt :: es => flush run ++ ⟨[cls.letter], fmt, true⟩ :: piecesOf [] es

theorem flush_items (run : List Char) :
    (flush run).map (fun piece => piece.item.1) = textItem run ∧
      (flush run).any (fun piece => piece.item.2) = false := by
  unfold flush textItem
  split <;> simp [Piece.item]

theorem Piece.item_letter (cls : ItemClass) (fmt : List Char) :
    Piece.item ⟨[cls.letter], fmt, true⟩ = (.item cls (String.ofList fmt), false) := by
  simp [Piece.item, formatItems_eq_some.mpr rfl]

theorem piecesOf_items (run : List Char) (es : List Element) :
    (piecesOf run es).map (fun piece => piece.item.1) = itemsOf run es ∧
      (piecesOf run es).any (fun piece => piece.item.2) = false := by
  induction es generalizing run with
  | nil => exact flush_items run
  | cons e es ih =>
      obtain ⟨hflush, hflag⟩ := flush_items run
      cases e with
      | literal c => exact ih (run ++ [c])
      | bare cls =>
          simp [piecesOf, itemsOf, hflush, hflag, ih, Piece.item_letter]
      | withFmt cls fmt =>
          simp [piecesOf, itemsOf, hflush, hflag, ih, Piece.item_letter]

theorem isName_letter (cls : ItemClass) : isName cls.letter = true := by cases cls <;> decide

theorem letter_ne_percent (cls : ItemClass) : cls.letter ≠ '%' := by cases cls <;> decide

theorem scanPattern_directive {p d : List Char} {i : Nat} {x : Directive} {nstr : List Char}
    {vec : List Piece} {error : Bool} (hp : p.drop i = '%' :: d) (hd : d.head? ≠ some '%')
    (hx : scanDirective p i ⟨i + 1, false, 0, [], []⟩ = x) (hstatus : x.fmtStatus = false) :
    scanPattern p i nstr vec error =
      scanPattern p x.n [] (vec ++ flush nstr ++ [⟨x.str, x.fmt, true⟩]) error := by
  obtain ⟨hi, hget, hrest⟩ := of_drop_eq_cons hp
  have hnext : p[i + 1]? ≠ some '%' := by
    rwa [← List.head?_drop, hrest]
  rw [scanPattern, dif_pos hi, if_neg (not_not.mpr hget), if_neg hnext]
  simp only [hx, hstatus, if_true]

/-- `vec` and `nstr` behind the elements. -/
def scanned (vec : List Piece) (nstr : List Char) : List Element → List Piece × List Char
  | [] => (vec, nstr)
  | .literal c :: es => scanned vec (nstr ++ [c]) es
  | .bare cls :: es => scanned (vec ++ flush nstr ++ [⟨[cls.letter], [], true⟩]) [] es
  | .withFmt cls fmt :: es => scanned (vec ++ flush nstr ++ [⟨[cls.letter], fmt, true⟩]) [] es

theorem scanned_flush (vec : List Piece) (nstr : List Char) (es : List Element) :
    (scanned vec nstr es).1 ++ flush (scanned vec nstr es).2 = vec ++ piecesOf nstr es := by
  induction es generalizing vec nstr with
  | nil => rfl
  | cons e es ih => cases e <;> simp [scanned, piecesOf, ih]

theorem scanPattern_reads {p follow : List Char} {es : List Element} (hes : Reads follow es)
    {i : Nat} (hp : p.drop i = render es ++ follow) (nstr : List Char) (vec : List Piece)
    (error : Bool) :
    scanPattern p i nstr vec error =
      scanPattern p (i + (render es).length) (scanned vec nstr es).2 (scanned vec nstr es).1
        error := by
  induction es generalizing i nstr vec with
  | nil => rfl
  | cons e es ih =>
      have hlen : i + (render (e :: es)).length = i + e.render.length + (render es).length := by
        rw [render_cons, List.length_append, Nat.add_assoc]
      have hnext : p.drop (i + e.render.length) = render es ++ follow :=
        drop_append_length (by rw [hp, render_cons, List.append_assoc])
      rw [hlen]
      cases e with
      | literal c =>
          obtain ⟨hi, hget, hrest⟩ := of_drop_eq_cons hp
          have hstep : scanPattern p i nstr vec error =
              scanPattern p (i + 1) (nstr ++ [c]) vec error := by
            by_cases hc : c = '%'
            · have hdouble : p[i + 1]? = some '%' := by
                rw [← List.head?_drop, hrest]
                exact hes.1 hc
              rw [scanPattern, dif_pos hi, if_neg (by rw [hget, not_not, hc]), if_pos hdouble, hc]
            · rw [scanPattern, dif_pos hi, if_pos (by rw [hget]; exact hc), hget]
          rw [hstep]
          exact ih hes.2 hnext (nstr ++ [c]) vec
      | bare cls =>
          obtain ⟨hi, _, hrest⟩ := of_drop_eq_cons hp
          change p.drop (i + 1) = [cls.letter] ++ (render es ++ follow) at hrest
          have hletter : ∀ c ∈ [cls.letter], isName c = true := fun c hc => by
            rw [List.mem_singleton.mp hc]
            exact isName_letter cls
          have hpercent : (cls.letter :: (render es ++ follow)).head? ≠ some '%' :=
            fun h => letter_ne_percent cls (Option.some.inj h)
          have hx : scanDirective p i ⟨i + 1, false, 0, [], []⟩ =
              ⟨i + 2, false, 0, [cls.letter], []⟩ := by
            cases hrender : render es ++ follow with
            | nil =>
                rw [hrender, List.append_nil] at hrest
                have hend : p.length = i + 2 := by
                  have hcount := congrArg List.length hrest
                  rw [List.length_drop, List.length_singleton] at hcount
                  omega
                rw [scanDirective_bare_end hi hrest hletter, hend]
            | cons c rest =>
                rw [hrender] at hrest
                have hends : Ends (c :: rest) := hrender ▸ hes.1
                exact scanDirective_bare hrest hletter hends
          rw [scanPattern_directive hp hpercent hx rfl]
          exact ih hes.2 hnext [] _
      | withFmt cls fmt =>
          have hp : p.drop i = '%' :: ([cls.letter] ++ '{' :: (fmt ++ '}' ::
              (render es ++ follow))) := by
            rw [hp]
            simp [Element.render]
          obtain ⟨_, _, hshape⟩ := of_drop_eq_cons hp
          have hletter : ∀ c ∈ [cls.letter], isName c = true := fun c hc => by
            rw [List.mem_singleton.mp hc]
            exact isName_letter cls
          have hx := scanDirective_arg hshape hletter hes.1
          have hend : i + 1 + [cls.letter].length + 1 + fmt.length + 1 =
              i + (Element.withFmt cls fmt).render.length := by
            simp [Element.render]
            omega
          rw [scanPattern_directive hp
            (fun h => letter_ne_percent cls (Option.some.inj h)) hx rfl, hend]
          exact ih hes.2 hnext [] _

theorem scanPattern_render {p : List Char} {es : List Element} (hes : Reads [] es) {i : Nat}
    (hp : p.drop i = render es) (nstr : List Char) (vec : List Piece) (error : Bool) :
    scanPattern p i nstr vec error = (vec ++ piecesOf nstr es, error) := by
  have hend : p.length ≤ i + (render es).length := by
    have hcount := congrArg List.length hp
    rw [List.length_drop] at hcount
    omega
  rw [scanPattern_reads hes (by rw [hp, List.append_nil]), scanPattern,
    dif_neg (Nat.not_lt.mpr hend), scanned_flush]

theorem scanPattern_extends (p : List Char) (i : Nat) (nstr : List Char) (vec : List Piece)
    (error : Bool) :
    vec ⊆ (scanPattern p i nstr vec error).1 ∧
      (error = true → (scanPattern p i nstr vec error).2 = true) := by
  fun_induction scanPattern p i nstr vec error with
  | case1 i nstr vec error h hplain ih => exact ih
  | case2 i nstr vec error h hplain hdouble ih => exact ih
  | case3 i nstr vec error h hplain hdouble x hstatus ih =>
      exact ⟨fun piece hpiece => ih.1 (by simp [hpiece]), ih.2⟩
  | case4 i nstr vec error h hplain hdouble x hstatus ih =>
      exact ⟨fun piece hpiece => ih.1 (by simp [hpiece]), fun _ => ih.2 rfl⟩
  | case5 i nstr vec error h => exact ⟨List.subset_append_left _ _, id⟩

theorem scanPattern_grammar (p : List Char) (i : Nat) (nstr : List Char) (vec : List Piece)
    (error : Bool) (herror : (scanPattern p i nstr vec error).2 = false)
    (hitems : ∀ piece ∈ (scanPattern p i nstr vec error).1, piece.item.2 = false) :
    ∃ es, Reads [] es ∧ render es = p.drop i := by
  fun_induction scanPattern p i nstr vec error with
  | case1 i nstr vec error h hplain ih =>
      obtain ⟨es, hes, hrender⟩ := ih herror hitems
      refine ⟨.literal p[i] :: es, ⟨fun hc => absurd hc hplain, hes⟩, ?_⟩
      rw [List.drop_eq_getElem_cons h, ← hrender]
      rfl
  | case2 i nstr vec error h hplain hdouble ih =>
      obtain ⟨es, hes, hrender⟩ := ih herror hitems
      refine ⟨.literal '%' :: es, ⟨fun _ => ?_, hes⟩, ?_⟩
      · rw [hrender, List.append_nil, List.head?_drop, hdouble]
      · rw [List.drop_eq_getElem_cons h, not_not.mp hplain, ← hrender]
        rfl
  | case3 i nstr vec error h hplain hdouble x hstatus ih =>
      obtain ⟨es, hes, hrender⟩ := ih herror hitems
      have hknown : (Piece.item ⟨x.str, x.fmt, true⟩).2 = false :=
        hitems _ ((scanPattern_extends _ _ _ _ _).1 (by simp))
      have hcls : ∃ cls, formatItems x.str = some cls := by
        cases hitem : formatItems x.str with
        | none => simp [Piece.item, hitem] at hknown
        | some cls => exact ⟨cls, rfl⟩
      obtain ⟨cls, hcls⟩ := hcls
      have hstr := formatItems_eq_some.mp hcls
      rcases scanDirective_cases (x := x) h rfl hstatus with ⟨_, hends, hrest⟩ | ⟨hfmt, hrest⟩
      · refine ⟨.bare cls :: es, ⟨by rw [hrender, List.append_nil]; exact hends, hes⟩, ?_⟩
        rw [List.drop_eq_getElem_cons h, hrest, not_not.mp hplain, hstr, ← hrender]
        rfl
      · refine ⟨.withFmt cls x.fmt :: es, ⟨hfmt, hes⟩, ?_⟩
        rw [List.drop_eq_getElem_cons h, hrest, not_not.mp hplain, hstr, ← hrender]
        simp [Element.render]
  | case4 i nstr vec error h hplain hdouble x hstatus ih =>
      rw [(scanPattern_extends _ _ _ _ _).2 rfl] at herror
      cases herror
  | case5 i nstr vec error h =>
      exact ⟨[], trivial, (List.drop_eq_nil_of_le (Nat.not_lt.mp h)).symm⟩

/-! ## The parser -/

theorem LogFormatter.scan_render {formatter : LogFormatter} {es : List Element}
    (hes : Reads [] es) (hrender : render es = formatter.pattern.toList) :
    formatter.scan = (piecesOf [] es, false) :=
  scanPattern_render (i := 0) hes hrender.symm [] [] false

theorem LogFormatter.isError_render {formatter : LogFormatter} {es : List Element}
    (hes : Reads [] es) (hrender : render es = formatter.pattern.toList) :
    formatter.isError = false := by
  simp only [isError, scan_render hes hrender, (piecesOf_items [] es).2, Bool.or_false]

theorem LogFormatter.items_render {formatter : LogFormatter} {es : List Element}
    (hes : Reads [] es) (hrender : render es = formatter.pattern.toList) :
    formatter.items = itemsOf [] es := by
  simp only [items, scan_render hes hrender, (piecesOf_items [] es).1]

theorem LogFormatter.reads_of_not_isError {formatter : LogFormatter} {es : List Element}
    {follow : List Char} (herror : formatter.isError = false) (hes : Reads follow es)
    (hrender : formatter.pattern.toList = render es ++ follow) :
    ∃ rest, Reads [] rest ∧ render rest = follow := by
  obtain ⟨hscan, hpieces⟩ := Bool.or_eq_false_iff.mp herror
  have hstart : formatter.pattern.toList.drop 0 = render es ++ follow := hrender
  have hread := scanPattern_reads hes hstart [] [] false
  rw [scan, hread] at hscan hpieces
  obtain ⟨rest, hrest, hfollow⟩ := scanPattern_grammar _ _ _ _ _ hscan fun piece hpiece => by
    simpa using List.any_eq_false.mp hpieces piece hpiece
  refine ⟨rest, hrest, ?_⟩
  rw [hfollow, Nat.zero_add, hrender, List.drop_left]

/-- The parser accepts exactly its grammar, and the items are those of the elements. -/
theorem accepts_exactly_grammar (formatter : LogFormatter)
    (hpercent : ¬ ['%', '%'] <:+: formatter.pattern.toList) :
    (formatter.isError = false ↔
        ∃ es, WellFormed es ∧ render es = formatter.pattern.toList) ∧
      ∀ es, WellFormed es → render es = formatter.pattern.toList →
        formatter.items = itemsOf [] es := by
  refine ⟨⟨fun herror => ?_, fun hex => ?_⟩, fun es hes hrender => ?_⟩
  · have hall : formatter.pattern.toList = render [] ++ formatter.pattern.toList := rfl
    have hnone : Reads formatter.pattern.toList [] := trivial
    obtain ⟨es, hes, hrender⟩ := LogFormatter.reads_of_not_isError herror hnone hall
    exact ⟨es, hes.wellFormed (by rwa [hrender]), hrender⟩
  · obtain ⟨es, hes, hrender⟩ := hex
    exact LogFormatter.isError_render hes.reads hrender
  · exact LogFormatter.items_render hes.reads hrender

def sampleElements : List Element :=
  [.withFmt .dateTime "%H:%M".toList, .bare .tab, .literal '[', .bare .level, .literal ']',
    .literal ' ', .bare .message]

theorem accepts_exactly_grammar_sample :
    (LogFormatter.mk "%d{%H:%M}%T[%p] %m").isError = false ∧
      (LogFormatter.mk "%d{%H:%M}%T[%p] %m").items =
        [.item .dateTime "%H:%M", .item .tab "", .string "[", .item .level "", .string "] ",
          .item .message ""] := by
  have hgrammar := accepts_exactly_grammar ⟨"%d{%H:%M}%T[%p] %m"⟩ (by decide)
  have hformed : WellFormed sampleElements := by decide
  have hrender : render sampleElements = "%d{%H:%M}%T[%p] %m".toList := by decide
  exact ⟨hgrammar.1.mpr ⟨sampleElements, hformed, hrender⟩,
    (hgrammar.2 sampleElements hformed hrender).trans (by decide)⟩

end Sylar.Log
