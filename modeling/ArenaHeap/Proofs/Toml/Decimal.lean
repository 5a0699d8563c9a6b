import ArenaHeap.Proofs.Toml.Grammar

namespace ArenaHeap.Toml

/-!
# Reading natural numbers

Readers of values know from the first characters what kind of value begins, so a number must not
look like a date, a time, a float or a number to another base.

* `Closed` — a value ends here.
* `value?_written` — a number in front of something that ends it is read as what it is.
-/

variable {n : Nat} {c : Char} {ds cs rest : List Char}

/-! ### What a number looks like -/

/-- What may stand right behind a value: white space, a comment, the end of the line. -/
def Delimits (c : Char) : Bool := isBlank c || c == '#' || c == '\n' || c == '\r'

/-- A value ends here. -/
def Closed (rest : List Char) : Prop := ∀ c ∈ rest.head?, Delimits c = true

theorem eq_of_delimits (hc : Delimits c = true) :
    c = ' ' ∨ c = '\t' ∨ c = '#' ∨ c = '\n' ∨ c = '\r' := by
  simpa [Delimits, isBlank, or_assoc] using hc

/-- A property of characters that decides against the five delimiters. -/
theorem not_delimits {p : Char → Bool} (hp : p c = true)
    (hspace : p ' ' = false) (htab : p '\t' = false) (hsharp : p '#' = false)
    (hfeed : p '\n' = false) (hreturn : p '\r' = false) : Delimits c = false := by
  by_contra hc
  rcases eq_of_delimits (by simpa using hc) with rfl | rfl | rfl | rfl | rfl <;> simp_all

theorem delimits_of_isDigit (hc : c.isDigit = true) : Delimits c = false :=
  not_delimits hc (by decide) (by decide) (by decide) (by decide) (by decide)

/-- Behind the first character of a number there are digits and underscores. -/
def Tails (c : Char) : Bool := c.isDigit || c == '_'

theorem Grouped.tails (h : Grouped ds cs) : ∀ c ∈ cs, Tails c = true := by
  induction h with
  | nil => nofun
  | digit hc _ ih => exact List.forall_mem_cons.2 ⟨by simp [Tails, hc], ih⟩
  | parted hc _ ih =>
    exact List.forall_mem_cons.2 ⟨rfl, List.forall_mem_cons.2 ⟨by simp [Tails, hc], ih⟩⟩

theorem Decimal.cons (h : Decimal n cs) : ∃ c tail, cs = c :: tail ∧ c.isDigit = true ∧
    ∀ d ∈ tail, Tails d = true := by
  cases h with
  | zero => exact ⟨'0', [], rfl, rfl, nofun⟩
  | digits hc _ hds _ => exact ⟨_, _, rfl, hc, hds.tails⟩

theorem Written.cons (h : Written n cs) : ∃ c tail, cs = c :: tail ∧
    (c.isDigit = true ∨ c = '+' ∨ c = '-') ∧ ∀ d ∈ tail, Tails d = true := by
  cases h with
  | plain h =>
    obtain ⟨c, tail, rfl, hc, htail⟩ := h.cons
    exact ⟨c, tail, rfl, .inl hc, htail⟩
  | plus h =>
    obtain ⟨c, tail, rfl, hc, htail⟩ := h.cons
    exact ⟨'+', _, rfl, .inr (.inl rfl), List.forall_mem_cons.2 ⟨by simp [Tails, hc], htail⟩⟩
  | minusZero => exact ⟨'-', ['0'], rfl, .inr (.inr rfl), List.forall_mem_singleton.2 rfl⟩

/-- In a number that ends no mark follows on digits. -/
theorem not_marked {m : Char} {k : Nat} (hk : 0 < k) (htail : ∀ d ∈ ds, Tails d = true)
    (hrest : Closed rest) (hmark : Tails m = false) (hdelimits : Delimits m = false)
    (hdigits : ∀ i < k, ∃ d, (c :: ds ++ rest)[i]? = some d ∧ d.isDigit = true)
    (hat : (c :: ds ++ rest)[k]? = some m) : False := by
  by_cases hin : k < (c :: ds).length
  · rw [List.getElem?_append_left hin] at hat
    obtain ⟨k, rfl⟩ := Nat.exists_eq_succ_of_ne_zero hk.ne'
    have hm := htail m (List.mem_of_getElem? hat)
    rw [hmark] at hm
    cases hm
  · -- What ends the number is then a digit or the mark.
    obtain ⟨d, hd, hcase⟩ : ∃ d, (c :: ds ++ rest)[(c :: ds).length]? = some d ∧
        (d.isDigit = true ∨ d = m) := by
      rcases Nat.lt_or_eq_of_le (Nat.le_of_not_lt hin) with hlt | heq
      · obtain ⟨d, hd, hdigit⟩ := hdigits _ hlt
        exact ⟨d, hd, .inl hdigit⟩
      · exact ⟨m, heq ▸ hat, .inr rfl⟩
    rw [List.getElem?_append_right (Nat.le_refl _), Nat.sub_self, ← List.head?_eq_getElem?] at hd
    have hends := hrest d hd
    rcases hcase with hdigit | rfl
    · rw [delimits_of_isDigit hdigit] at hends
      cases hends
    · rw [hdelimits] at hends
      cases hends

theorem startsDate_false (htail : ∀ d ∈ ds, Tails d = true) (hrest : Closed rest) :
    startsDate (c :: ds ++ rest) = false := by
  by_contra hstarts
  unfold startsDate at hstarts
  split at hstarts
  · rename_i a b e d t heq
    simp only [Bool.not_eq_false, Bool.and_eq_true] at hstarts
    obtain ⟨⟨⟨ha, hb⟩, he⟩, hd⟩ := hstarts
    refine not_marked (k := 4) (m := '-') (c := c) (by decide) htail hrest rfl rfl ?_ ?_
    · intro i hi
      rw [heq]
      match i, hi with
      | 0, _ => exact ⟨a, rfl, ha⟩
      | 1, _ => exact ⟨b, rfl, hb⟩
      | 2, _ => exact ⟨e, rfl, he⟩
      | 3, _ => exact ⟨d, rfl, hd⟩
    · rw [heq]
      rfl
  · exact hstarts rfl

theorem startsTime_false (htail : ∀ d ∈ ds, Tails d = true) (hrest : Closed rest) :
    startsTime (c :: ds ++ rest) = false := by
  by_contra hstarts
  unfold startsTime at hstarts
  split at hstarts
  · rename_i a b t heq
    simp only [Bool.not_eq_false, Bool.and_eq_true] at hstarts
    obtain ⟨ha, hb⟩ := hstarts
    refine not_marked (k := 2) (m := ':') (c := c) (by decide) htail hrest rfl rfl ?_ ?_
    · intro i hi
      rw [heq]
      match i, hi with
      | 0, _ => exact ⟨a, rfl, ha⟩
      | 1, _ => exact ⟨b, rfl, hb⟩
    · rw [heq]
      rfl
  · exact hstarts rfl

/-! ### Reading a number -/

theorem digit?_of_isDigit (hc : c.isDigit = true) : digit? 10 c = some (c.toNat - '0'.toNat) := by
  have hbounds : '0' ≤ c ∧ c ≤ '9' := by
    simpa [Char.isDigit, Char.le_def] using hc
  have hhigh : c.toNat ≤ 57 := hbounds.2
  have hlt : c.toNat - '0'.toNat < 10 := by
    show c.toNat - 48 < 10
    omega
  rw [digit?, hexDigit?, if_pos hbounds, Option.filter_some, if_pos (decide_eq_true hlt)]

theorem digit?_of_delimits (hc : Delimits c = true) : digit? 10 c = none := by
  rcases eq_of_delimits hc with rfl | rfl | rfl | rfl | rfl <;> rfl

section MoreDigits

variable {base d : Nat} (n count : Nat) (hline : c ≠ '_') (cs : List Char)

include hline

theorem moreDigits?_digit (hd : digit? base c = some d) : moreDigits? base n count (c :: cs) =
    moreDigits? base (n * base + d) (count + 1) cs := by
  rw [moreDigits?, hd]
  · exact fun _ _ h => absurd h hline
  · exact fun h => absurd h hline

theorem moreDigits?_end (hd : digit? base c = none) :
    moreDigits? base n count (c :: cs) = some ((n, count), c :: cs) := by
  rw [moreDigits?, hd]
  · exact fun _ _ h => absurd h hline
  · exact fun h => absurd h hline

end MoreDigits

theorem moreDigits?_grouped (h : Grouped ds cs) (hrest : Closed rest) (n count : Nat) :
    moreDigits? 10 n count (cs ++ rest) =
      some ((Nat.ofDigitChars 10 ds n, count + ds.length), rest) := by
  induction h generalizing n count with
  | nil =>
    cases rest with
    | nil => rfl
    | cons c rest =>
      have hc := hrest c rfl
      have hline : c ≠ '_' := by
        rintro rfl
        exact absurd hc (by decide)
      exact moreDigits?_end n count hline rest (digit?_of_delimits hc)
  | @digit c ds cs hc _ ih =>
    have hline : c ≠ '_' := by
      rintro rfl
      exact absurd hc (by decide)
    have hcount : count + (ds.length + 1) = count + 1 + ds.length := by omega
    rw [List.cons_append, moreDigits?_digit n count hline _ (digit?_of_isDigit hc),
      Nat.ofDigitChars_cons, Nat.mul_comm 10, List.length_cons, hcount]
    exact ih _ _
  | @parted c ds cs hc _ ih =>
    have hcount : count + (ds.length + 1) = count + 1 + ds.length := by omega
    rw [List.cons_append, List.cons_append, moreDigits?, digit?_of_isDigit hc,
      Nat.ofDigitChars_cons, Nat.mul_comm 10, List.length_cons, hcount]
    exact ih _ _

theorem plainDigits?_decimal (h : Decimal n cs) (hrest : Closed rest) :
    plainDigits? (cs ++ rest) = some (n, rest) := by
  cases h with
  | zero => rfl
  | @digits _ c ds cs hc hzero hds hvalue =>
    have hread : digits? 10 (c :: cs ++ rest) = some ((n, 1 + ds.length), rest) := by
      rw [List.cons_append, digits?, digit?_of_isDigit hc, Option.bind_eq_bind, Option.bind_some,
        moreDigits?_grouped hds hrest, ← hvalue, Nat.ofDigitChars_cons, Nat.mul_zero, Nat.zero_add]
    rw [plainDigits?, hread]
    · rfl
    · rintro _ heq
      exact hzero (List.cons.inj heq).1

theorem sign_of_isDigit (hc : c.isDigit = true) (cs : List Char) :
    sign (c :: cs) = (false, c :: cs) := by
  unfold sign
  split
  · rename_i heq
    cases heq
    cases hc
  · rename_i heq
    cases heq
    cases hc
  · rfl

theorem fitsInt64_of_lt (hn : n < 1 <<< 63) : fitsInt64 n = true := by
  have hmin : Int64.minValue.toInt = -9223372036854775808 := rfl
  have hmax : Int64.maxValue.toInt = 9223372036854775807 := rfl
  rw [fitsInt64, hmin, hmax, Bool.and_eq_true, decide_eq_true_iff, decide_eq_true_iff]
  omega

/-- Digits with or without a sign are an integer if no other base is announced in front of them and
    nothing behind them makes a float. -/
theorem number?_of_sign (cs : List Char) (negative : Bool) {body : List Char}
    (hsign : sign cs = (negative, body))
    (hbase : ∀ c t, cs = '0' :: c :: t → c ≠ 'x' ∧ c ≠ 'o' ∧ c ≠ 'b')
    (hbody : ∀ c ∈ body.head?, c.isDigit = true) (hplain : plainDigits? body = some (n, rest))
    (hrest : Closed rest) (hfits : fitsInt64 (if negative then -n else n) = true) :
    number? cs = some (.integer (if negative then -n else n), rest) := by
  unfold number?
  split
  · exact absurd rfl (hbase _ _ rfl).1
  · exact absurd rfl (hbase _ _ rfl).2.1
  · exact absurd rfl (hbase _ _ rfl).2.2
  · rw [hsign]
    split
    · rename_i heq
      cases heq
      exact absurd (hbody _ rfl) (by decide)
    · rename_i heq
      cases heq
      exact absurd (hbody _ rfl) (by decide)
    · rename_i heq
      cases heq
      rw [hplain, Option.bind_eq_bind, Option.bind_some]
      dsimp only
      split
      · exact absurd (hrest _ rfl) (by decide)
      · exact absurd (hrest _ rfl) (by decide)
      · exact absurd (hrest _ rfl) (by decide)
      · rw [if_pos hfits]
        rfl

theorem Decimal.no_base (h : Decimal n cs) (hrest : Closed rest) :
    ∀ c t, cs ++ rest = '0' :: c :: t → c ≠ 'x' ∧ c ≠ 'o' ∧ c ≠ 'b' := by
  intro c t heq
  cases h with
  | digits _ hzero _ _ => exact absurd (List.cons.inj heq).1 hzero
  | zero =>
    have hrest' : rest = c :: t := (List.cons.inj heq).2
    have hc : Delimits c = true := hrest c (by rw [hrest']; rfl)
    refine ⟨?_, ?_, ?_⟩ <;> rintro rfl <;> cases hc

/-- A number in front of what ends it. -/
theorem number?_written (h : Written n cs) (hrest : Closed rest) (hn : n < 1 <<< 63) :
    number? (cs ++ rest) = some (.integer n, rest) := by
  cases h with
  | plain h =>
    obtain ⟨c, tail, rfl, hc, _⟩ := h.cons
    exact number?_of_sign _ false (sign_of_isDigit hc _) (h.no_base hrest) (by simpa using hc)
      (plainDigits?_decimal h hrest) hrest (fitsInt64_of_lt hn)
  | @plus _ cs h =>
    obtain ⟨c, tail, rfl, hc, _⟩ := h.cons
    refine number?_of_sign ('+' :: (c :: tail ++ rest)) false rfl ?_ (by simpa using hc)
      (plainDigits?_decimal h hrest) hrest (fitsInt64_of_lt hn)
    exact fun _ _ heq => absurd (List.cons.inj heq).1 (by decide)
  | minusZero =>
    refine number?_of_sign ('-' :: '0' :: rest) true rfl ?_ (by simp) rfl hrest rfl
    exact fun _ _ heq => absurd (List.cons.inj heq).1 (by decide)

/-! ### Reading it as a value -/

/-- A number is read as one and as nothing else. -/
theorem value?_written (h : Written n cs) (hrest : Closed rest) (hn : n < 1 <<< 63)
    (depth : Nat) : value? (depth + 1) (cs ++ rest) = some (.integer n, rest) := by
  have hnumber := number?_written h hrest hn
  obtain ⟨c, tail, rfl, hc, htail⟩ := h.cons
  have hne : ∀ d, d.isDigit = false → d ≠ '+' → d ≠ '-' → c ≠ d := by
    rintro d hdigit hplus hminus rfl
    rcases hc with hc | hc | hc
    · rw [hdigit] at hc
      cases hc
    · exact hplus hc
    · exact hminus hc
  -- A digit or a sign begins no array, table, string or truth value.
  have hscalar : value? (depth + 1) (c :: tail ++ rest) = scalar? (c :: tail ++ rest) := by
    rw [List.cons_append, value?]
    · exact fun _ h => hne '[' rfl (by decide) (by decide) (List.cons.inj h).1
    · exact fun _ h => hne '{' rfl (by decide) (by decide) (List.cons.inj h).1
  have hquotes : ¬ (c = '"' ∨ c = '\'') :=
    not_or.2 ⟨hne _ rfl (by decide) (by decide), hne _ rfl (by decide) (by decide)⟩
  have htruth : ¬ (c = 't' ∨ c = 'f') :=
    not_or.2 ⟨hne _ rfl (by decide) (by decide), hne _ rfl (by decide) (by decide)⟩
  -- Nor do the characters behind it begin a date or a time.
  have hdate := startsDate_false (c := c) htail hrest
  have htime := startsTime_false (c := c) htail hrest
  rw [List.cons_append] at hdate htime hnumber hscalar
  rw [List.cons_append, hscalar, scalar?]
  show (if c = '"' ∨ c = '\'' then _ else _) = _
  rw [if_neg hquotes, if_neg htruth, hdate, htime, hnumber]
  rfl

end ArenaHeap.Toml
