import Sylar.Collection.Runs
import Sylar.Log.Grammar

/-! # Doubled percent signs

At `%%` the outer loop of `LogFormatter::init` takes a percent sign and goes on with the second
one. If that is not followed by another, it is read as the start of a directive.
-/

namespace Sylar.Log

open Collection

/-! ## What elements print -/

section Output

variable (strftime : String → Nat → String) (level : Level) (event : LogEvent)

def Element.output : Element → List Char
  | .literal c => [c]
  | .bare cls => ((FormatItem.item cls "").format strftime level event).toList
  | .withFmt cls fmt =>
      ((FormatItem.item cls (String.ofList fmt)).format strftime level event).toList

def outputs (es : List Element) : List Char := es.flatMap fun e => e.output strftime level event

@[simp] theorem outputs_nil : outputs strftime level event [] = [] := rfl

@[simp] theorem outputs_cons (e : Element) (es : List Element) :
    outputs strftime level event (e :: es) =
      e.output strftime level event ++ outputs strftime level event es := rfl

@[simp] theorem outputs_append (es es' : List Element) :
    outputs strftime level event (es ++ es') =
      outputs strftime level event es ++ outputs strftime level event es' :=
  List.flatMap_append

@[simp] theorem outputs_literals (text : List Char) :
    outputs strftime level event (text.map .literal) = text := by
  induction text with
  | nil => rfl
  | cons c text ih => rw [List.map_cons, outputs_cons, ih]; rfl

theorem textItem_output (run : List Char) :
    ((textItem run).flatMap fun item => (item.format strftime level event).toList) = run := by
  unfold textItem
  split
  · next hrun => exact hrun.symm
  · simp [FormatItem.format]

theorem itemsOf_output (run : List Char) (es : List Element) :
    ((itemsOf run es).flatMap fun item => (item.format strftime level event).toList) =
      run ++ outputs strftime level event es := by
  induction es generalizing run with
  | nil => simp [itemsOf, textItem_output]
  | cons e es ih => cases e <;> simp [itemsOf, textItem_output, ih, Element.output]

theorem LogFormatter.format_render {formatter : LogFormatter} {es : List Element}
    (hes : Reads [] es) (hrender : render es = formatter.pattern.toList) :
    (formatter.format strftime level event).toList = outputs strftime level event es := by
  rw [format, items_render hes hrender, String.toList_join, List.flatMap_map, itemsOf_output,
    List.nil_append]

/-- Two readings of one pattern print the same. -/
theorem outputs_eq_of_render {es es' : List Element} (hes : Reads [] es) (hes' : Reads [] es')
    (hrender : render es = render es') :
    outputs strftime level event es = outputs strftime level event es' := by
  have h : render es = (LogFormatter.mk (String.ofList (render es))).pattern.toList :=
    String.toList_ofList.symm
  rw [← LogFormatter.format_render strftime level event hes h,
    LogFormatter.format_render strftime level event hes' (hrender ▸ h)]

end Output

/-! ## Reading in front of a text -/

@[simp] theorem render_append (es es' : List Element) :
    render (es ++ es') = render es ++ render es' := List.flatMap_append

@[simp] theorem render_literals (text : List Char) : render (text.map .literal) = text := by
  induction text with
  | nil => rfl
  | cons c text ih => rw [List.map_cons, render_cons, ih]; rfl

theorem reads_append {follow : List Char} {es es' : List Element} :
    Reads follow (es ++ es') ↔ Reads (render es' ++ follow) es ∧ Reads follow es' := by
  induction es with
  | nil => simp [Reads]
  | cons e es ih => cases e <;> simp [Reads, ih, and_assoc]

theorem reads_literals {text : List Char} (h : '%' ∉ text) (follow : List Char) :
    Reads follow (text.map .literal) := by
  induction text with
  | nil => trivial
  | cons c text ih =>
      rw [List.mem_cons, not_or] at h
      exact ⟨fun hc => absurd hc.symm h.1, ih h.2⟩

/-- Percent signs are literal in front of another one. -/
theorem reads_percents {follow : List Char} (h : follow.head? = some '%') (count : Nat) :
    Reads follow ((List.replicate count '%').map .literal) := by
  induction count with
  | zero => trivial
  | succ count ih =>
      refine ⟨fun _ => ?_, ih⟩
      rw [render_literals]
      cases count with
      | zero => exact h
      | succ count => rfl

theorem Element.render_ne_nil (e : Element) : e.render ≠ [] := by
  cases e <;> simp [Element.render]

theorem ends_append {text : List Char} (h : text ≠ []) (follow : List Char) :
    Ends (text ++ follow) ↔ Ends text := by
  obtain ⟨c, text, rfl⟩ := List.exists_cons_of_ne_nil h
  rfl

theorem ends_congr {text text' : List Char} (h : text.head? = text'.head?) (hends : Ends text) :
    Ends text' := by
  rcases text with _ | ⟨c, text⟩ <;> rcases text' with _ | ⟨c', text'⟩
  · trivial
  · cases h
  · cases h
  · obtain rfl : c = c' := Option.some.inj h
    exact hends

theorem Reads.follow {follow follow' : List Char} {es : List Element} (h : Reads follow es)
    (hliteral : es.getLast? = some (.literal '%') → follow'.head? = some '%')
    (hbare : ∀ cls, es.getLast? = some (.bare cls) → Ends follow') : Reads follow' es := by
  induction es with
  | nil => trivial
  | cons e es ih =>
      by_cases hnil : es = []
      · subst hnil
        cases e with
        | literal c => exact ⟨fun hc => hliteral (by rw [hc]; rfl), trivial⟩
        | bare cls => exact ⟨hbare cls rfl, trivial⟩
        | withFmt cls fmt => exact ⟨h.1, trivial⟩
      · have hlast : (e :: es).getLast? = es.getLast? := by
          obtain ⟨x, es, rfl⟩ := List.exists_cons_of_ne_nil hnil
          exact List.getLast?_cons_cons
        rw [hlast] at hliteral hbare
        have hrender : render es ≠ [] := by
          obtain ⟨x, es, rfl⟩ := List.exists_cons_of_ne_nil hnil
          exact fun hempty => x.render_ne_nil (List.append_eq_nil_iff.1 hempty).1
        cases e with
        | literal c =>
            refine ⟨fun hc => ?_, ih h.2 hliteral hbare⟩
            have hnext := h.1 hc
            rwa [List.head?_append_of_ne_nil _ hrender] at hnext ⊢
        | bare cls =>
            have hends := h.1
            rw [ends_append hrender] at hends
            exact ⟨(ends_append hrender _).2 hends, ih h.2 hliteral hbare⟩
        | withFmt cls fmt => exact ⟨h.1, ih h.2 hliteral hbare⟩

/-! ## Directives -/

def Element.IsDirective : Element → Prop
  | .literal _ => False
  | .bare _ => True
  | .withFmt _ _ => True

def Element.cls : Element → Option ItemClass
  | .literal _ => none
  | .bare cls => some cls
  | .withFmt cls _ => some cls

theorem letter_injective {cls cls' : ItemClass} (h : cls.letter = cls'.letter) : cls = cls' := by
  have hcls : formatItems [cls.letter] = some cls := formatItems_eq_some.2 rfl
  rw [h, formatItems_eq_some.2 rfl] at hcls
  exact (Option.some.inj hcls).symm

/-- An event with `text` in all its strings. -/
def plainEvent (text : String) : LogEvent where
  file := text
  line := 0
  elapse := 0
  threadId := 0
  fiberId := 0
  time := 0
  threadName := text
  content := text
  logger := text

def constant (text : String) : String → Nat → String := fun _ _ => text

/-- With such a date the argument of a directive does not show. -/
theorem format_constant (text : String) (level : Level) (event : LogEvent) (cls : ItemClass)
    (fmt : String) :
    (FormatItem.item cls fmt).format (constant text) level event =
      (FormatItem.item cls "").format (constant text) level event := by
  cases cls <;> rfl

/-- What no directive prints is its own letter. -/
theorem format_ne_letter (cls : ItemClass) :
    ∃ z rest, ((FormatItem.item cls "").format (constant "*") .unknow (plainEvent "*")).toList =
      z :: rest ∧ z ≠ cls.letter := by
  have hhead : ((FormatItem.item cls "").format (constant "*") .unknow
      (plainEvent "*")).toList.head?.any (· ≠ cls.letter) = true := by
    cases cls <;> decide
  obtain ⟨z, hz, hne⟩ := (Option.any_eq_true _ _).1 hhead
  obtain ⟨rest, hrest⟩ := List.head?_eq_some_iff.1 hz
  exact ⟨z, rest, hrest, of_decide_eq_true hne⟩

theorem output_ne_letter {e : Element} {cls : ItemClass} (h : e.cls = some cls) :
    ∃ z rest, e.output (constant "*") .unknow (plainEvent "*") = z :: rest ∧ z ≠ cls.letter := by
  cases e with
  | literal c => cases h
  | bare cls' =>
      cases h
      exact format_ne_letter cls
  | withFmt cls' fmt =>
      cases h
      rw [Element.output, format_constant]
      exact format_ne_letter cls

theorem Element.render_directive {e : Element} {cls : ItemClass} (h : e.cls = some cls) :
    ∃ rest, e.render = '%' :: cls.letter :: rest := by
  cases e with
  | literal c => cases h
  | bare cls' => cases h; exact ⟨[], rfl⟩
  | withFmt cls' fmt => cases h; exact ⟨_, rfl⟩

/-! ## Counting

Percent signs apart, no element prints more than it takes in the pattern, the level excepted.
-/

def plain (text : List Char) : Nat := text.countP (· ≠ '%')

@[simp] theorem plain_nil : plain [] = 0 := rfl

@[simp] theorem plain_append (text text' : List Char) :
    plain (text ++ text') = plain text + plain text' := List.countP_append

theorem plain_cons (c : Char) (text : List Char) :
    plain (c :: text) = plain text + if c = '%' then 0 else 1 := by
  rw [plain, List.countP_cons]
  by_cases hc : c = '%' <;> simp [plain, hc]

/-- What an element prints if all strings are empty, without the level. -/
def Element.weight : Element → Nat
  | .literal c => if c = '%' then 0 else 1
  | .bare cls => classWeight cls
  | .withFmt cls _ => classWeight cls
where
  classWeight : ItemClass → Nat
    | .message | .level | .name | .dateTime | .filename | .threadName => 0
    | .elapse | .threadId | .newLine | .line | .tab | .fiberId => 1

def Element.levels (e : Element) : Nat := if e.cls = some .level then 1 else 0

def weight (es : List Element) : Nat := (es.map Element.weight).sum

def levels (es : List Element) : Nat := (es.map Element.levels).sum

theorem plain_output (level : Level) (e : Element) :
    plain (e.output (constant "") level (plainEvent "")) =
      e.weight + plain level.toString.toList * e.levels := by
  have hcls : ∀ cls,
      plain ((FormatItem.item cls "").format (constant "") level (plainEvent "")).toList =
        Element.weight.classWeight cls +
          plain level.toString.toList * if some cls = some ItemClass.level then 1 else 0 := by
    intro cls
    cases level <;> cases cls <;> decide
  cases e with
  | literal c => simp [Element.output, Element.weight, Element.levels, Element.cls, plain_cons]
  | bare cls => exact hcls cls
  | withFmt cls fmt =>
      rw [Element.output, format_constant]
      exact hcls cls

theorem plain_outputs (level : Level) (es : List Element) :
    plain (outputs (constant "") level (plainEvent "") es) =
      weight es + plain level.toString.toList * levels es := by
  induction es with
  | nil => rfl
  | cons e es ih =>
      rw [outputs_cons, plain_append, ih, plain_output]
      simp only [weight, levels, List.map_cons, List.sum_cons]
      ring

/-- Two levels of different length tell the level from the rest. -/
theorem weight_eq {es es' : List Element} {count : Nat}
    (h : ∀ level, plain (outputs (constant "") level (plainEvent "") es) =
      count + plain (outputs (constant "") level (plainEvent "") es')) :
    weight es = count + weight es' := by
  have hinfo := h .info
  have hunknow := h .unknow
  have hlen : plain Level.info.toString.toList = 4 := by decide
  have hlen' : plain Level.unknow.toString.toList = 6 := by decide
  rw [plain_outputs, plain_outputs, hlen] at hinfo
  rw [plain_outputs, plain_outputs, hlen'] at hunknow
  omega

theorem weight_eq_of_render {es es' : List Element} (hes : Reads [] es) (hes' : Reads [] es')
    (hrender : render es = render es') : weight es = weight es' := by
  have h : weight es = 0 + weight es' := weight_eq fun level => by
    rw [outputs_eq_of_render _ level _ hes hes' hrender, Nat.zero_add]
  rwa [Nat.zero_add] at h

theorem weight_append (es es' : List Element) : weight (es ++ es') = weight es + weight es' := by
  simp [weight]

theorem Element.weight_le_one (e : Element) : e.weight ≤ 1 := by
  have hcls : ∀ cls, Element.weight.classWeight cls ≤ 1 := fun cls => by cases cls <;> decide
  cases e with
  | literal c =>
      simp only [Element.weight]
      split <;> omega
  | bare cls => exact hcls cls
  | withFmt cls fmt => exact hcls cls

theorem split_brace {es : List Element} {follow rest : List Char} (hes : Reads follow es) :
    ∀ {text}, render es = text ++ '}' :: rest → ∃ front back, es = front ++ back ∧
      render back = rest := by
  induction es with
  | nil => intro text h; simp at h
  | cons e es ih =>
      have hin : ∀ {text}, Reads follow es → render es = text ++ '}' :: rest →
          ∃ front back, e :: es = front ++ back ∧ render back = rest := by
        intro text hes h
        obtain ⟨front, back, rfl, hback⟩ := ih hes h
        exact ⟨e :: front, back, rfl, hback⟩
      intro text h
      cases e with
      | literal c =>
          rcases text with _ | ⟨x, text⟩
          · exact ⟨[.literal c], es, rfl, (List.cons.inj h).2⟩
          · exact hin hes.2 (List.cons.inj h).2
      | bare cls =>
          rcases text with _ | ⟨x, _ | ⟨y, text⟩⟩
          · cases (List.cons.inj h).1
          · exact absurd (List.cons.inj (List.cons.inj h).2).1 (by cases cls <;> decide)
          · exact hin hes.2 (List.cons.inj (List.cons.inj h).2).2
      | withFmt cls fmt =>
          have hshape : '%' :: cls.letter :: '{' :: (fmt ++ '}' :: render es) =
              text ++ '}' :: rest := by
            rw [← h]
            simp [Element.render]
          rcases text with _ | ⟨x, _ | ⟨y, _ | ⟨z, text⟩⟩⟩
          · cases (List.cons.inj hshape).1
          · exact absurd (List.cons.inj (List.cons.inj hshape).2).1 (by cases cls <;> decide)
          · cases (List.cons.inj (List.cons.inj (List.cons.inj hshape).2).2).1
          · have hfmt : fmt ++ '}' :: render es = text ++ '}' :: rest :=
              (List.cons.inj (List.cons.inj (List.cons.inj hshape).2).2).2
            rcases List.append_eq_append_iff.1 hfmt with ⟨mid, _, hmid⟩ | ⟨mid, hmid, hrest⟩
            · rcases mid with _ | ⟨w, mid⟩
              · exact ⟨[.withFmt cls fmt], es, rfl, (List.cons.inj hmid).2⟩
              · exact hin hes.2 (List.cons.inj hmid).2
            · rcases mid with _ | ⟨w, mid⟩
              · exact ⟨[.withFmt cls fmt], es, rfl, (List.cons.inj hrest).2.symm⟩
              · have hw : w = '}' := (List.cons.inj hrest).1.symm
                exact absurd (by rw [hmid, hw]; simp) hes.1

def Starts (es : List Element) : Prop := ∀ e ∈ es.head?, e.IsDirective

theorem Starts.render_cons {es : List Element} (h : Starts es) {c : Char} {rest : List Char}
    (hrender : render es = c :: rest) : c = '%' := by
  cases es with
  | nil => cases hrender
  | cons e es =>
      have he : e.IsDirective := h e rfl
      cases e with
      | literal c => exact he.elim
      | bare cls => exact (List.cons.inj hrender).1.symm
      | withFmt cls fmt => exact (List.cons.inj hrender).1.symm

theorem Starts.ends {es : List Element} (h : Starts es) : Ends (render es) := by
  cases hrender : render es with
  | nil => trivial
  | cons c rest =>
      rw [h.render_cons hrender]
      exact ⟨by decide, by decide, by decide⟩

/-- Behind an argument that ends in or behind `text`, no more is printed than is written. -/
theorem weight_behind_fmt {es after : List Element} {fmt text : List Char}
    (hes : Reads [] es) (hafter : Reads [] after) (hstarts : Starts after)
    (hle : ∀ text, render es = text ++ render after → weight es ≤ plain text + weight after)
    (h : fmt ++ '}' :: render es = text ++ render after) :
    weight es ≤ plain text + weight after := by
  rcases List.append_eq_append_iff.1 h with ⟨mid, htext, hmid⟩ | ⟨mid, _, hmid⟩
  · rcases mid with _ | ⟨c, mid⟩
    · cases hstarts.render_cons hmid.symm
    · have hrest := hle mid (List.cons.inj hmid).2
      rw [htext, plain_append, plain_cons]
      omega
  · obtain ⟨front, back, rfl, hback⟩ := split_brace hafter hmid
    have heq := weight_eq_of_render hes (reads_append.1 hafter).2 hback.symm
    rw [weight_append]
    omega

theorem weight_le {es after : List Element} (hes : Reads [] es) (hafter : Reads [] after)
    (hstarts : Starts after) {text : List Char} (h : render es = text ++ render after) :
    weight es ≤ plain text + weight after := by
  induction es generalizing text with
  | nil => exact Nat.zero_le _
  | cons e es ih =>
      have hcons : weight (e :: es) = e.weight + weight es := by simp [weight]
      have hone := e.weight_le_one
      rcases text with _ | ⟨x, text⟩
      · rw [weight_eq_of_render hes hafter h]
        exact Nat.le_add_left _ _
      · cases e with
        | literal c =>
            obtain ⟨rfl, hrest⟩ := List.cons.inj h
            have hle := ih hes.2 hrest
            rw [hcons, plain_cons, Element.weight]
            omega
        | bare cls =>
            obtain ⟨-, hrest⟩ := List.cons.inj h
            rcases text with _ | ⟨y, text⟩
            · exact absurd (hstarts.render_cons hrest.symm) (letter_ne_percent cls)
            · obtain ⟨hy, hrest⟩ := List.cons.inj hrest
              have hle := ih hes.2 hrest
              rw [hcons, plain_cons, plain_cons, if_neg (hy ▸ letter_ne_percent cls)]
              omega
        | withFmt cls fmt =>
            have hshape : '%' :: cls.letter :: '{' :: (fmt ++ '}' :: render es) =
                (x :: text) ++ render after := by
              rw [← h]
              simp [Element.render]
            obtain ⟨-, hrest⟩ := List.cons.inj hshape
            rcases text with _ | ⟨y, text⟩
            · exact absurd (hstarts.render_cons hrest.symm) (letter_ne_percent cls)
            · obtain ⟨hy, hrest⟩ := List.cons.inj hrest
              have hopen : ('{' :: fmt) ++ '}' :: render es = text ++ render after := hrest
              have hle := weight_behind_fmt hes.2 hafter hstarts (fun text => ih hes.2) hopen
              rw [hcons, plain_cons, plain_cons, if_neg (hy ▸ letter_ne_percent cls)]
              omega

/-! ## Escaping -/

/-- `text` with every percent sign doubled. -/
def escape (text : List Char) : List Char :=
  text.flatMap fun c => if c = '%' then ['%', '%'] else [c]

theorem escape_append (text text' : List Char) :
    escape (text ++ text') = escape text ++ escape text' := List.flatMap_append

theorem escape_cons {c : Char} (hc : c ≠ '%') (text : List Char) :
    escape (c :: text) = c :: escape text := by
  rw [escape, List.flatMap_cons, if_neg hc]
  rfl

theorem escape_eq {text : List Char} (h : '%' ∉ text) : escape text = text := by
  induction text with
  | nil => rfl
  | cons c text ih =>
      rw [List.mem_cons, not_or] at h
      rw [escape_cons (fun hc => h.1 hc.symm), ih h.2]

theorem escape_percents (count : Nat) :
    escape (List.replicate count '%') = List.replicate (2 * count) '%' := by
  induction count with
  | zero => rfl
  | succ count ih =>
      rw [List.replicate_succ, Nat.mul_succ, List.replicate_succ, List.replicate_succ, ← ih]
      rfl

theorem plain_escape (text : List Char) : plain (escape text) = plain text := by
  induction text with
  | nil => rfl
  | cons c text ih =>
      by_cases hc : c = '%'
      · subst hc
        have hdouble : escape ('%' :: text) = '%' :: '%' :: escape text := rfl
        rw [hdouble, plain_cons, plain_cons, plain_cons, ih]
        rfl
      · rw [escape_cons hc, plain_cons, plain_cons, ih]

/-- A place of a valid pattern that has a directive, or an end of the pattern, on either side.
The valid patterns are those that are read to their end (`LogFormatter.isError_render` and
`LogFormatter.reads_of_not_isError`). -/
structure Place where
  before : List Element
  after : List Element
  reads : Reads [] (before ++ after)
  ends : ∀ e ∈ before.getLast?, e.IsDirective
  starts : Starts after

namespace Place

def insert (place : Place) (text : String) : LogFormatter :=
  ⟨String.ofList (render place.before ++ escape text.toList ++ render place.after)⟩

structure Adds (place : Place) (text : String) : Prop where
  accepted : (place.insert text).isError = false
  printed : ∀ strftime level event,
    ((place.insert text).format strftime level event).toList =
      outputs strftime level event place.before ++ text.toList ++
        outputs strftime level event place.after

/-- A name in front of the place goes on with the letters and braces behind it. -/
def Stands (place : Place) (text : String) : Prop :=
  ∀ cls, place.before.getLast? = some (.bare cls) → Ends text.toList

variable {place : Place} {text : String}

theorem insert_pattern (place : Place) (text : String) :
    (place.insert text).pattern.toList =
      render place.before ++ escape text.toList ++ render place.after := String.toList_ofList

theorem reads_before (place : Place) {follow : List Char}
    (h : ∀ cls, place.before.getLast? = some (.bare cls) → Ends follow) :
    Reads follow place.before := by
  refine (reads_append.1 place.reads).1.follow (fun hlast => ?_) h
  exact (place.ends _ hlast).elim

theorem reads_after (place : Place) : Reads [] place.after := (reads_append.1 place.reads).2

/-- Behind elements that are read, the pattern goes on with others, which print the rest. -/
theorem Adds.rest (h : place.Adds text) {es : List Element} {follow : List Char}
    (hes : Reads follow es) (hpattern : render place.before ++ escape text.toList ++
      render place.after = render es ++ follow) :
    ∃ rest, Reads [] rest ∧ render rest = follow ∧ ∀ strftime level event,
      outputs strftime level event es ++ outputs strftime level event rest =
        outputs strftime level event place.before ++ text.toList ++
          outputs strftime level event place.after := by
  rw [← insert_pattern] at hpattern
  obtain ⟨rest, hrest, hrender⟩ := LogFormatter.reads_of_not_isError h.accepted hes hpattern
  refine ⟨rest, hrest, hrender, fun strftime level event => ?_⟩
  have hall : Reads [] (es ++ rest) := by
    refine reads_append.2 ⟨?_, hrest⟩
    rwa [hrender, List.append_nil]
  rw [← outputs_append, ← h.printed, LogFormatter.format_render strftime level event hall]
  rw [render_append, hrender, hpattern]

theorem adds_of_plain (hpercent : '%' ∉ text.toList) (hstands : place.Stands text) :
    place.Adds text := by
  have hreads : Reads [] (place.before ++ (text.toList.map .literal ++ place.after)) := by
    refine reads_append.2 ⟨place.reads_before fun cls hlast => ?_,
      reads_append.2 ⟨reads_literals hpercent _, place.reads_after⟩⟩
    rw [List.append_nil, render_append, render_literals]
    by_cases hnil : text.toList = []
    · rw [hnil]
      exact place.starts.ends
    · exact (ends_append hnil _).2 (hstands cls hlast)
  have hrender : render (place.before ++ (text.toList.map .literal ++ place.after)) =
      (place.insert text).pattern.toList := by
    simp [insert_pattern, escape_eq hpercent]
  refine ⟨LogFormatter.isError_render hreads hrender, fun strftime level event => ?_⟩
  rw [LogFormatter.format_render strftime level event hreads hrender]
  simp

/-- A name that goes on with the text is unknown, or takes an argument that was to be printed. -/
theorem Adds.stands (h : place.Adds text) : place.Stands text := by
  intro cls hlast
  by_contra hends
  obtain ⟨front, hbefore⟩ : ∃ front, place.before = front ++ [.bare cls] :=
    ⟨_, (List.dropLast_append_getLast? _ hlast).symm⟩
  obtain ⟨c, tail, htext⟩ : ∃ c tail, text.toList = c :: tail := by
    refine List.exists_cons_of_ne_nil fun hnil => hends ?_
    rw [hnil]
    trivial
  have hc : c ≠ '%' := by
    rintro rfl
    refine hends ?_
    rw [htext]
    exact ⟨by decide, by decide, by decide⟩
  have hread : Reads ('%' :: cls.letter :: (escape text.toList ++ render place.after)) front := by
    have hreads := (reads_append.1 place.reads).1
    rw [hbefore] at hreads
    exact (reads_append.1 hreads).1.follow (fun _ => rfl)
      fun _ _ => ⟨by decide, by decide, by decide⟩
  obtain ⟨rest, hrest, hrender, hall⟩ := h.rest hread (by simp [hbefore, Element.render])
  have hprinted : ∀ strftime level event, outputs strftime level event rest =
      (Element.bare cls).output strftime level event ++ (text.toList ++
        outputs strftime level event place.after) := by
    intro strftime level event
    simpa [hbefore] using hall strftime level event
  obtain ⟨e, rest, rfl⟩ := List.exists_cons_of_ne_nil
    (show rest ≠ [] by rintro rfl; cases hrender)
  rw [htext, escape_cons hc] at hrender
  cases e with
  | literal c' =>
      obtain ⟨rfl, hnext⟩ := List.cons.inj hrender
      have hpercent := hrest.1 rfl
      change render rest = cls.letter :: (c :: escape tail ++ render place.after) at hnext
      rw [hnext] at hpercent
      exact letter_ne_percent cls (Option.some.inj hpercent)
  | bare cls' =>
      have hnext : render rest = c :: escape tail ++ render place.after :=
        (List.cons.inj (List.cons.inj hrender).2).2
      have hfollow := hrest.1
      rw [hnext] at hfollow
      refine hends ?_
      rw [htext]
      exact hfollow
  | withFmt cls' fmt =>
      have hshape : '%' :: cls'.letter :: '{' :: (fmt ++ '}' :: render rest) =
          '%' :: cls.letter :: (c :: escape tail ++ render place.after) := by
        rw [← hrender]
        simp [Element.render]
      have hname := (List.cons.inj hshape).2
      obtain rfl := letter_injective (List.cons.inj hname).1
      obtain ⟨rfl, hfmt⟩ := List.cons.inj (List.cons.inj hname).2
      have hle := weight_behind_fmt hrest.2 place.reads_after place.starts
        (fun _ => weight_le hrest.2 place.reads_after place.starts) hfmt
      have heq : weight rest = (plain tail + 1) + weight place.after :=
        weight_eq fun level => by
          have hshown := hprinted (constant "") level (plainEvent "")
          rw [outputs_cons, Element.output, Element.output, format_constant] at hshown
          rw [List.append_cancel_left hshown, plain_append, htext, plain_cons, if_neg hc]
      rw [plain_escape] at hle
      omega

/-- A percent sign in front of another character is not printed with a text that goes on with
that character. -/
theorem not_printed (count : Nat) {rest : List Element} {back : List Char}
    (hrest : Reads [] rest) (hback : back.head? ≠ some '%')
    (hrender : render rest = '%' :: (escape back ++ render place.after))
    (hprinted : ∀ strftime level event,
      List.replicate count '%' ++ outputs strftime level event rest =
        back ++ outputs strftime level event place.after) : False := by
  obtain ⟨e, rest, rfl⟩ := List.exists_cons_of_ne_nil
    (show rest ≠ [] by rintro rfl; cases hrender)
  rw [render_cons] at hrender
  cases hcls : e.cls with
  | none =>
      -- the run goes on behind the text
      obtain ⟨c, rfl⟩ : ∃ c, e = .literal c := by
        cases e with
        | literal c => exact ⟨c, rfl⟩
        | bare cls => cases hcls
        | withFmt cls fmt => cases hcls
      obtain ⟨rfl, hnext⟩ := List.cons.inj hrender
      have hpercent := hrest.1 rfl
      change render rest = escape back ++ render place.after at hnext
      rw [List.append_nil, hnext] at hpercent
      rcases back with _ | ⟨c, back⟩
      · have hshown := hprinted (constant "*") .unknow (plainEvent "*")
        rw [outputs_cons, outputs_eq_of_render _ _ _ hrest.2 place.reads_after hnext] at hshown
        have hlen := congrArg List.length hshown
        simp [Element.output] at hlen
        omega
      · have hc : c ≠ '%' := fun heq => hback (by rw [heq]; rfl)
        rw [escape_cons hc] at hpercent
        exact hc (Option.some.inj hpercent)
  | some cls =>
      obtain ⟨tail, htail⟩ := Element.render_directive hcls
      obtain ⟨z, output, houtput, hz⟩ := output_ne_letter hcls
      have hshown := hprinted (constant "*") .unknow (plainEvent "*")
      rw [outputs_cons, houtput] at hshown
      rw [htail] at hrender
      have hname : cls.letter :: (tail ++ render rest) = escape back ++ render place.after :=
        (List.cons.inj hrender).2
      rcases back with _ | ⟨c, back⟩
      · exact letter_ne_percent cls (place.starts.render_cons hname.symm)
      · have hc : c ≠ '%' := fun heq => hback (by rw [heq]; rfl)
        rw [escape_cons hc, List.cons_append] at hname
        have hletter := (List.cons.inj hname).1
        rcases count with _ | count
        · exact hz ((List.cons.inj hshown).1.trans hletter.symm)
        · exact hc (List.cons.inj hshown).1.symm

/-- The last of an odd number of percent signs begins a directive. -/
theorem Adds.no_percent (h : place.Adds text) : '%' ∉ text.toList := by
  intro hmem
  obtain ⟨front, count, back, htext, hfront, hback⟩ := first_run hmem
  have hread : Reads ('%' :: (escape back ++ render place.after)) (place.before ++
      (front.map .literal ++ (List.replicate (2 * count + 1) '%').map .literal)) := by
    refine reads_append.2 ⟨place.reads_before fun cls hlast => ?_,
      reads_append.2 ⟨reads_literals hfront _, reads_percents rfl _⟩⟩
    refine ends_congr ?_ (h.stands cls hlast)
    simp [htext, List.head?_append, List.head?_replicate, -List.map_replicate]
  have hdoubled : List.replicate (2 * (count + 1)) '%' =
      List.replicate (2 * count + 1) '%' ++ ['%'] := by
    rw [Nat.mul_succ, List.replicate_succ']
  obtain ⟨rest, hrest, hrender, hall⟩ := h.rest hread (by
    simp [htext, escape_append, escape_eq hfront, escape_percents, hdoubled,
      -List.map_replicate])
  refine not_printed count hrest hback hrender fun strftime level event => ?_
  have hdouble : List.replicate (2 * count + 1) '%' =
      List.replicate (count + 1) '%' ++ List.replicate count '%' := by
    rw [List.replicate_append_replicate]
    congr 1
    omega
  have hshown := hall strftime level event
  simpa [htext, hdouble, -List.map_replicate, -List.replicate_append_replicate] using hshown

theorem adds_iff (place : Place) (text : String) :
    place.Adds text ↔ '%' ∉ text.toList ∧ place.Stands text :=
  ⟨fun h => ⟨h.no_percent, h.stands⟩, fun h => adds_of_plain h.1 h.2⟩

def whole : Place where
  before := []
  after := []
  reads := trivial
  ends := fun _ h => (by cases h)
  starts := fun _ h => (by cases h)

end Place

/-- A text is printed as it is from its escaped form, alone or between directives, exactly if it
has no percent sign (and does not go on with the name of a directive in front of it). -/
theorem escape_iff (place : Place) (text : String) :
    (((LogFormatter.mk (String.ofList (escape text.toList))).isError = false ∧
        ∀ strftime level event,
          (LogFormatter.mk (String.ofList (escape text.toList))).format strftime level event =
            text) ↔ '%' ∉ text.toList) ∧
      (place.Adds text ↔ '%' ∉ text.toList ∧ place.Stands text) := by
  refine ⟨?_, place.adds_iff text⟩
  have hinsert : Place.whole.insert text = ⟨String.ofList (escape text.toList)⟩ := by
    simp [Place.insert, Place.whole]
  rw [← hinsert]
  constructor
  · rintro ⟨herror, hformat⟩
    refine Place.Adds.no_percent ⟨herror, fun strftime level event => ?_⟩
    rw [hformat]
    simp [Place.whole]
  · intro hpercent
    have hadds : Place.whole.Adds text := Place.adds_of_plain hpercent fun _ h => (by cases h)
    refine ⟨hadds.accepted, fun strftime level event => String.toList_inj.1 ?_⟩
    rw [hadds.printed]
    simp [Place.whole]

/-- An escaped percent sign is refused, and an escaped `%m` prints the message. -/
theorem percent_read_again :
    (LogFormatter.mk (String.ofList (escape "%".toList))).isError = true ∧
      (LogFormatter.mk (String.ofList (escape "%m".toList))).isError = false ∧
      (LogFormatter.mk (String.ofList (escape "%m".toList))).format (constant "") .info
        (plainEvent "hello") = "%hello" := by
  have hreads : Reads [] [.literal '%', .bare .message] :=
    ⟨fun _ => rfl, trivial, trivial⟩
  have hrender : render [.literal '%', .bare .message] =
      (LogFormatter.mk (String.ofList (escape "%m".toList))).pattern.toList := by decide
  refine ⟨?_, LogFormatter.isError_render hreads hrender, ?_⟩
  · by_contra herror
    rw [Bool.not_eq_true] at herror
    have hfirst : Reads ['%'] [.literal '%'] := ⟨fun _ => rfl, trivial⟩
    obtain ⟨rest, hrest, hrender⟩ := LogFormatter.reads_of_not_isError herror hfirst (by decide)
    rcases rest with _ | ⟨e, rest⟩
    · cases hrender
    · cases e with
      | literal c =>
          obtain ⟨rfl, hnil⟩ := List.cons.inj hrender
          have hnext := hrest.1 rfl
          change render rest = [] at hnil
          rw [hnil] at hnext
          cases hnext
      | bare cls => cases hrender
      | withFmt cls fmt => cases hrender
  · rw [← String.toList_inj, LogFormatter.format_render _ _ _ hreads hrender]
    decide

end Sylar.Log
