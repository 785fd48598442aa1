import FenceSync.Json
import FenceSync.Toml.Quoted
import FenceSync.Proofs.Text.Decimal
import FenceSync.Proofs.Text.Join
import FenceSync.Proofs.Text.Search
/-!
# Reading JSON

A reader of compact JSON, without blanks between the parts of a value. It reads back what is
written, so a text that is written is one value and nothing else, and it tells which value.
-/
namespace FenceSync.Json

def unescaped? : Char → Option Char
  | '"' => some '"'
  | '\\' => some '\\'
  | '/' => some '/'
  | 'b' => some '\x08'
  | 'f' => some '\x0c'
  | 'n' => some '\n'
  | 'r' => some '\r'
  | 't' => some '\t'
  | _ => none

/-- The characters of a string up to its closing quote, and the text behind it. -/
def characters? : Text → Option (Text × Text)
  | '"' :: t => some ([], t)
  | '\\' :: 'u' :: a :: b :: c :: d :: t =>
    (Toml.codePoint? [a, b, c, d]).bind fun x => (characters? t).map fun (s, r) => (x :: s, r)
  | '\\' :: c :: t =>
    (unescaped? c).bind fun x => (characters? t).map fun (s, r) => (x :: s, r)
  | c :: t => if c.toNat < 0x20 then none else (characters? t).map fun (s, r) => (c :: s, r)
  | [] => none

def string? : Text → Option (Text × Text)
  | '"' :: t => characters? t
  | _ => none

def number? (t : Text) : Option (Nat × Text) :=
  let digits := t.takeWhile Text.isAsciiDigit
  if digits = [] ∨ (digits.head? = some '0' ∧ digits ≠ ['0']) then none
  else some (Text.decimal digits, t.dropWhile Text.isAsciiDigit)

def scalar? (t : Text) : Option (Json × Text) :=
  match Text.after? "null".toList t, Text.after? "true".toList t, Text.after? "false".toList t with
  | some r, _, _ => some (.null, r)
  | _, some r, _ => some (.boolean true, r)
  | _, _, some r => some (.boolean false, r)
  | none, none, none =>
    ((string? t).map fun (s, r) => (.string s, r)).or ((number? t).map fun (n, r) => (.number n, r))

section

variable {α : Type} (item? : Text → Option (α × Text)) (close : Char)

def items? (t : Text) : Option (List α × Text) :=
  match item? t with
  | none => none
  | some (_, []) => none
  | some (a, c :: r) =>
    if c = close then some ([a], r)
    else if c = ',' ∧ r.length < t.length then (items? r).map fun (as, r) => (a :: as, r)
    else none
termination_by t.length

def list? (t : Text) : Option (List α × Text) :=
  match Text.after? [close] t with
  | some r => some ([], r)
  | none => items? item? close t

end

def field? (value? : Text → Option (Json × Text)) (t : Text) :
    Option ((String × Json) × Text) :=
  match string? t with
  | some (key, ':' :: r) => (value? r).map fun (j, r) => ((String.ofList key, j), r)
  | _ => none

/-- A value, of which the parts may lie at most so deep. -/
def value? : Nat → Text → Option (Json × Text)
  | 0, _ => none
  | _ + 1, [] => none
  | depth + 1, c :: t =>
    if c = '[' then (list? (value? depth) ']' t).map fun (js, r) => (.array js, r)
    else if c = '{' then (list? (field? (value? depth)) '}' t).map fun (fs, r) => (.object fs, r)
    else scalar? (c :: t)

def parse? (t : Text) : Option Json :=
  match value? t.length t with
  | some (j, []) => some j
  | _ => none

theorem characters?_escaped (c : Char) (t : Text) :
    characters? (escaped c ++ t) = (characters? t).map fun x => (c :: x.1, x.2) := by
  have hcontrol : ∀ n < 0x20, (hexDigits n).length = 4 ∧
      Toml.codePoint? (hexDigits n) = some (Char.ofNat n) := by decide
  unfold escaped
  split
  case h_8 hquote hslash _ _ _ _ _ =>
    split
    · next hc =>
      obtain ⟨hlength, hpoint⟩ := hcontrol c.toNat hc
      obtain ⟨a, b, d, e, hdigits⟩ := List.length_eq_four.1 hlength
      rw [hdigits] at hpoint ⊢
      simp [characters?, hpoint, Char.ofNat_toNat]
    · next hc =>
      rw [List.singleton_append, characters?, if_neg hc]
      · exact hquote
      · exact fun _ _ _ _ _ h => absurd h hslash
      · exact fun _ _ h => absurd h hslash
  all_goals simp [characters?, unescaped?]

theorem string?_quoted (t rest : Text) : string? (quoted t ++ rest) = some (t, rest) := by
  rw [quoted, List.cons_append, List.cons_append, List.append_assoc, string?,
    List.singleton_append]
  induction t with
  | nil => simp [characters?]
  | cons c t ih =>
    rw [List.flatMap_cons, List.append_assoc, characters?_escaped, ih]
    rfl

def EndsNumber (t : Text) : Prop := ∀ c ∈ t.head?, Text.isAsciiDigit c = false

theorem number?_ofNat (n : Nat) {rest : Text} (h : EndsNumber rest) :
    number? (Text.ofNat n ++ rest) = some (n, rest) := by
  have htake : (Text.ofNat n ++ rest).takeWhile Text.isAsciiDigit = Text.ofNat n :=
    Text.takeWhile_append (fun c => Text.isAsciiDigit_of_mem_ofNat) h
  have hdrop : (Text.ofNat n ++ rest).dropWhile Text.isAsciiDigit = rest :=
    Text.dropWhile_append (fun c => Text.isAsciiDigit_of_mem_ofNat) h
  rw [number?, htake, hdrop, Text.decimal_ofNat, if_neg]
  rintro (hnil | ⟨hzero, hne⟩)
  · exact Nat.toDigits_ne_nil hnil
  · exact hne (by rw [Text.eq_zero_of_head?_ofNat hzero]; rfl)

section

variable {α : Type} {item? : Text → Option (α × Text)} {close : Char} {text : α → Text}

/-- The reader reads the items back, whatever follows the character behind them. -/
def ReadsBack (item? : Text → Option (α × Text)) (close : Char) (text : α → Text)
    (as : List α) : Prop :=
  ∀ a ∈ as, ∀ c r, c = ',' ∨ c = close → item? (text a ++ c :: r) = some (a, c :: r)

theorem items?_join (hclose : close ≠ ',') {as : List α} (hne : as ≠ [])
    (h : ReadsBack item? close text as) (rest : Text) :
    items? item? close (Text.join [','] (as.map text) ++ close :: rest) = some (as, rest) := by
  induction as with
  | nil => exact absurd rfl hne
  | cons a as ih =>
    obtain ⟨hread, hlater⟩ := List.forall_mem_cons.1 h
    by_cases has : as = []
    · subst has
      rw [List.map_singleton, Text.join_singleton, items?, hread close rest (.inr rfl)]
      simp
    · have hmap : as.map text ≠ [] := by simpa using has
      have htext : Text.join [','] ((a :: as).map text) ++ close :: rest =
          text a ++ ',' :: (Text.join [','] (as.map text) ++ close :: rest) := by
        rw [List.map_cons, Text.join_cons _ _ hmap]
        simp
      have hlength (u : Text) : u.length < (text a ++ ',' :: u).length := by
        simp only [List.length_append, List.length_cons]
        omega
      rw [htext, items?, hread ',' _ (.inl rfl)]
      simp only [Ne.symm hclose, if_false, true_and, hlength, if_true, ih has hlater,
        Option.map_some]

theorem list?_join (hclose : close ≠ ',') {as : List α} (h : ReadsBack item? close text as)
    (hstart : ∀ a ∈ as, ∃ c t, text a = c :: t ∧ c ≠ close) (rest : Text) :
    list? item? close (Text.join [','] (as.map text) ++ close :: rest) = some (as, rest) := by
  cases as with
  | nil =>
    have hafter : Text.after? [close] (close :: rest) = some rest := Text.after?_append [close] rest
    rw [list?, List.map_nil, Text.join, List.intercalate_nil, List.nil_append, hafter]
  | cons a as =>
    obtain ⟨c, t, htext, hc⟩ := hstart a List.mem_cons_self
    obtain ⟨u, hu⟩ : text a <+: Text.join [','] ((a :: as).map text) :=
      Text.prefix_join_cons (text a) (as.map text)
    have hafter : Text.after? [close] (Text.join [','] ((a :: as).map text) ++ close :: rest) =
        none := by
      rw [← hu, htext]
      simp [Text.after?, Ne.symm hc]
    rw [list?, hafter]
    exact items?_join hclose (List.cons_ne_nil a as) h rest

end

theorem renderElements_eq (js : List Json) :
    renderElements js = Text.join [','] (js.map render) := by
  induction js with
  | nil => rfl
  | cons j js ih =>
    cases js with
    | nil => rw [renderElements, List.map_singleton, Text.join_singleton]
    | cons k js =>
      have hmap : (k :: js).map render ≠ [] := List.cons_ne_nil _ _
      rw [renderElements, ih, List.map_cons (a := j), Text.join_cons [','] (render j) hmap,
        List.append_assoc, List.singleton_append]
      exact List.cons_ne_nil k js

def renderField (x : String × Json) : Text := quoted x.1.toList ++ ':' :: render x.2

theorem renderFields_eq (fs : List (String × Json)) :
    renderFields fs = Text.join [','] (fs.map renderField) := by
  induction fs with
  | nil => rfl
  | cons x fs ih =>
    obtain ⟨key, j⟩ := x
    cases fs with
    | nil => rw [renderFields, List.map_singleton, Text.join_singleton, renderField]
    | cons y fs =>
      have hmap : (y :: fs).map renderField ≠ [] := List.cons_ne_nil _ _
      rw [renderFields, ih, List.map_cons (a := (key, j)),
        Text.join_cons [','] (renderField (key, j)) hmap]
      · simp only [renderField, List.append_assoc, List.cons_append, List.nil_append]
      · exact List.cons_ne_nil y fs

/-- A property of all values follows from that of their parts. -/
theorem induction {P : Json → Prop} (null : P .null) (boolean : ∀ b, P (.boolean b))
    (number : ∀ n, P (.number n)) (string : ∀ t, P (.string t))
    (array : ∀ js, (∀ j ∈ js, P j) → P (.array js))
    (object : ∀ fs, (∀ x ∈ fs, P x.2) → P (.object fs)) (j : Json) : P j :=
  @Json.rec P (fun js => ∀ j ∈ js, P j) (fun fs => ∀ x ∈ fs, P x.2) (fun x => P x.2) null boolean
    number string array object nofun (fun _ _ hj hjs => List.forall_mem_cons.2 ⟨hj, hjs⟩) nofun
    (fun _ _ hx hfs => List.forall_mem_cons.2 ⟨hx, hfs⟩) (fun _ _ hj => hj) j

/-- No value begins as a list ends. -/
theorem exists_render_eq_cons (j : Json) : ∃ c t, j.render = c :: t ∧ c ≠ ']' := by
  cases j with
  | null => exact ⟨_, _, rfl, by decide⟩
  | boolean b => cases b <;> exact ⟨_, _, rfl, by decide⟩
  | number n =>
    obtain ⟨c, t, h, hdigit⟩ := Text.exists_ofNat_eq_cons n
    refine ⟨c, t, h, ?_⟩
    rintro rfl
    exact absurd hdigit (by decide)
  | string t => exact ⟨_, _, rfl, by decide⟩
  | array js => exact ⟨_, _, rfl, by decide⟩
  | object fs => exact ⟨_, _, rfl, by decide⟩

theorem value?_scalar {c : Char} {t : Text} (hlist : c ≠ '[') (hfields : c ≠ '{') (depth : Nat) :
    value? (depth + 1) (c :: t) = scalar? (c :: t) := by
  rw [value?, if_neg hlist, if_neg hfields]

theorem value?_string (depth : Nat) (t rest : Text) :
    value? (depth + 1) (quoted t ++ rest) = some (.string t, rest) := by
  have h := string?_quoted t rest
  have hquoted : quoted t ++ rest = '"' :: (t.flatMap escaped ++ ['"'] ++ rest) := rfl
  rw [hquoted] at h ⊢
  rw [value?_scalar (by decide) (by decide)]
  simp only [scalar?, h]
  rfl

theorem value?_number (depth n : Nat) {rest : Text} (h : EndsNumber rest) :
    value? (depth + 1) (Text.ofNat n ++ rest) = some (.number n, rest) := by
  have hnumber := number?_ofNat n h
  obtain ⟨c, t, hn, hdigit⟩ := Text.exists_ofNat_eq_cons n
  have hne {x : Char} (hx : Text.isAsciiDigit x = false) : c ≠ x := by
    rintro rfl
    rw [hdigit] at hx
    cases hx
  rw [hn, List.cons_append] at hnumber ⊢
  rw [value?_scalar (hne (by decide)) (hne (by decide))]
  have hnull : 'n' ≠ c := (hne (by decide)).symm
  have htrue : 't' ≠ c := (hne (by decide)).symm
  have hfalse : 'f' ≠ c := (hne (by decide)).symm
  have hquote : c ≠ '"' := hne (by decide)
  simp [scalar?, Text.after?, string?, hnull, htrue, hfalse, hquote, hnumber]

def ReadBack (j : Json) : Prop :=
  ∀ depth, j.render.length ≤ depth + 1 → ∀ rest, EndsNumber rest →
    value? (depth + 1) (j.render ++ rest) = some (j, rest)

theorem ReadBack.within {j : Json} (h : j.ReadBack) {t : Text} {depth : Nat}
    (ht : j.render <:+: t) (hdepth : t.length ≤ depth) {c : Char}
    (hc : Text.isAsciiDigit c = false) (r : Text) :
    value? depth (j.render ++ c :: r) = some (j, c :: r) := by
  obtain ⟨d, u, hrender, -⟩ := exists_render_eq_cons j
  have hpos : 0 < depth := by
    have := ht.length_le
    simp only [hrender, List.length_cons] at this
    omega
  obtain ⟨depth, rfl⟩ := Nat.exists_eq_add_one.2 hpos
  exact h depth (ht.length_le.trans hdepth) (c :: r) fun x hx => by cases hx; exact hc

/-- Every value is read back. -/
theorem readBack (j : Json) : j.ReadBack := by
  induction j using Json.induction with
  | null => exact fun _ _ _ _ => rfl
  | boolean b => cases b <;> exact fun _ _ _ _ => rfl
  | number n => exact fun depth _ _ hrest => value?_number depth n hrest
  | string t => exact fun depth _ rest _ => value?_string depth t rest
  | array js ih =>
    intro depth hdepth rest _
    rw [render, renderElements_eq] at hdepth ⊢
    have hreads : ReadsBack (value? depth) ']' render js := by
      intro j hj c r hc
      have hinside : j.render <:+: Text.join [','] (js.map render) :=
        Text.infix_join_of_mem _ (List.mem_map_of_mem hj)
      have hless : (Text.join [','] (js.map render)).length ≤ depth := by
        simp only [List.length_append, List.length_cons] at hdepth
        omega
      refine (ih j hj).within hinside hless ?_ r
      rcases hc with rfl | rfl <;> decide
    have hlist := list?_join (by decide) hreads (fun j _ => exists_render_eq_cons j) rest
    simp [value?, hlist]
  | object fs ih =>
    intro depth hdepth rest _
    rw [render, renderFields_eq] at hdepth ⊢
    have hreads : ReadsBack (field? (value? depth)) '}' renderField fs := by
      intro x hx c r hc
      have hinside : renderField x <:+: Text.join [','] (fs.map renderField) :=
        Text.infix_join_of_mem _ (List.mem_map_of_mem hx)
      have hvalue : x.2.render <:+: renderField x :=
        ((List.suffix_cons ':' _).trans (List.suffix_append _ _)).isInfix
      have hless : (Text.join [','] (fs.map renderField)).length ≤ depth := by
        simp only [List.length_append, List.length_cons] at hdepth
        omega
      have hdigit : Text.isAsciiDigit c = false := by
        rcases hc with rfl | rfl <;> decide
      rw [renderField, List.append_assoc, field?, string?_quoted, List.cons_append]
      simp only [(ih x hx).within (hvalue.trans hinside) hless hdigit r, Option.map_some,
        String.ofList_toList]
    have hlist := list?_join (by decide) hreads (fun x _ => ⟨_, _, rfl, by decide⟩) rest
    simp [value?, hlist]

/-- A text that is written is the one value that it was written from. -/
theorem parse?_render (j : Json) : parse? j.render = some j := by
  obtain ⟨c, t, hrender, -⟩ := exists_render_eq_cons j
  have h := readBack j t.length (by rw [hrender]; rfl) [] nofun
  rw [List.append_nil] at h
  rw [parse?, hrender, List.length_cons, ← hrender, h]

/-- Not every text is a value. -/
example : ["", "01", "[1,]", "\x7b\"a\" 1\x7d", "1 2", "\"\n\""].all
    (fun t => (parse? t.toList).isNone) = true := by
  cbv

theorem newline_not_mem_escaped (c : Char) : '\n' ∉ escaped c := by
  have hcontrol : ∀ n < 0x20, '\n' ∉ hexDigits n := by decide
  unfold escaped
  split
  case h_8 hline _ _ _ _ =>
    split
    · next hc => simpa using hcontrol c.toNat hc
    · simpa using Ne.symm hline
  all_goals decide

theorem newline_not_mem_quoted (t : Text) : '\n' ∉ quoted t := by
  rw [quoted, List.cons_append, List.mem_cons, List.mem_append, List.mem_flatMap]
  rintro (h | ⟨c, -, h⟩ | h)
  · exact absurd h (by decide)
  · exact newline_not_mem_escaped c h
  · exact absurd h (by decide)

theorem newline_not_mem_join {ts : List Text} (h : ∀ t ∈ ts, '\n' ∉ t) :
    '\n' ∉ Text.join [','] ts := by
  intro hn
  rcases Text.mem_join hn with hn | ⟨t, ht, hn⟩
  · exact absurd hn (by decide)
  · exact h t ht hn

theorem newline_not_mem_renderField {x : String × Json} (h : '\n' ∉ x.2.render) :
    '\n' ∉ renderField x := by
  rw [renderField, List.mem_append, List.mem_cons]
  rintro (hn | hn | hn)
  · exact newline_not_mem_quoted _ hn
  · exact absurd hn (by decide)
  · exact h hn

/-- A value is written in one line. -/
theorem newline_not_mem_render (j : Json) : '\n' ∉ j.render := by
  induction j using Json.induction with
  | null => decide
  | boolean b => cases b <;> decide
  | number n => exact fun h => absurd (Text.isAsciiDigit_of_mem_ofNat h) (by decide)
  | string t => exact newline_not_mem_quoted t
  | array js ih =>
    rw [render, renderElements_eq]
    simpa using newline_not_mem_join (List.forall_mem_map.2 ih)
  | object fs ih =>
    rw [render, renderFields_eq]
    simpa using newline_not_mem_join
      (List.forall_mem_map.2 fun x hx => newline_not_mem_renderField (ih x hx))

end FenceSync.Json
