import ArenaHeap.Proofs.Toml.Decimal
import ArenaHeap.Text.Blank

namespace ArenaHeap.Toml

/-!
# Reading documents that define numbers

The reader makes one entry of each definition, in the order of the lines, and passes over the lines
that say nothing.

* `Reading.lines?_idle`, `Reading.lines?_definition` — what one line does to what was read before.
* `Reading.lines?_defines` — what all lines do.
* `Document.parse?_defines` — the entries of the whole document.
-/

variable {n : Nat} {key : String} {cs tail rest : List Char} {defs : List (String × Nat)}

/-! ### What ends -/

theorem Definition.length_pos (h : Definition key n cs) : 0 < cs.length := by
  cases h
  simp only [List.length_append, List.length_cons]
  omega

theorem LineEnd.length_le (h : LineEnd tail rest) : rest.length ≤ tail.length := by
  cases h with
  | feed => exact Nat.le_add_right ..
  | returnFeed => exact Nat.le_add_right _ 2
  | last => exact Nat.le_refl _

theorem LineEnd.head?_not_blank (h : LineEnd tail rest) : ∀ c ∈ tail.head?, isBlank c = false := by
  cases h <;> rintro c ⟨⟩ <;> rfl

theorem LineEnd.head?_not_text (h : LineEnd tail rest) : ∀ c ∈ tail.head?, isText c = false := by
  cases h <;> rintro c ⟨⟩ <;> rfl

theorem LineEnd.closed (h : LineEnd tail rest) : Closed tail := by
  cases h <;> rintro c ⟨⟩ <;> rfl

theorem delimits_of_isBlank {c : Char} (hc : isBlank c = true) : Delimits c = true := by
  simp [Delimits, hc]

theorem Idle.closed (h : Idle cs) (hend : LineEnd tail rest) : Closed (cs ++ tail) := by
  cases h with
  | blanks hcs => exact Text.head?_front (fun c hc => delimits_of_isBlank (hcs c hc)) hend.closed
  | comment hcs _ =>
    rw [List.append_assoc]
    refine Text.head?_front (fun c hc => delimits_of_isBlank (hcs c hc)) ?_
    rintro c ⟨⟩
    rfl

theorem skipBlanks_front (hcs : Blanks cs) (hrest : ∀ c ∈ rest.head?, isBlank c = false) :
    skipBlanks (cs ++ rest) = rest :=
  Text.dropWhile_front hcs hrest

theorem skipComment_text {text : List Char} (htext : ∀ c ∈ text, isText c = true)
    (hend : LineEnd tail rest) : skipComment ('#' :: (text ++ tail)) = tail :=
  Text.dropWhile_front htext hend.head?_not_text

/-- What says nothing is passed over to the end of its line. -/
theorem trailing?_idle (h : Idle cs) (hend : LineEnd tail rest) :
    trailing? (cs ++ tail) = some rest := by
  have hline : lineEnd? tail = some rest := by cases hend <;> rfl
  cases h with
  | blanks hcs =>
    have hcomment : skipComment tail = tail := by cases hend <;> rfl
    rw [trailing?, skipBlanks_front hcs hend.head?_not_blank, hcomment, hline]
  | comment hcs htext =>
    rw [trailing?, List.append_assoc, skipBlanks_front hcs (by rintro c ⟨⟩; rfl), List.cons_append,
      skipComment_text htext hend, hline]

/-! ### Keys -/

theorem moreText?_plain {text : List Char} (htext : ∀ c ∈ text, isPlain c = true)
    (read rest : List Char) :
    moreText? read (text ++ '"' :: rest) = some (read.reverse ++ text, rest) := by
  induction text generalizing read with
  | nil => rw [List.nil_append, moreText?, List.append_nil]
  | cons c text ih =>
    obtain ⟨hc, htext⟩ := List.forall_mem_cons.1 htext
    simp only [isPlain, Bool.and_eq_true, bne_iff_ne] at hc
    obtain ⟨⟨htextual, hquote⟩, hescape⟩ := hc
    rw [List.cons_append, moreText?, if_pos htextual, ih htext, List.reverse_cons,
      List.append_assoc]
    · rfl
    · exact fun h => hquote h
    · exact fun h => hescape h

theorem literalText?_literal {text : List Char} (htext : ∀ c ∈ text, isLiteral c = true)
    (rest : List Char) : literalText? (text ++ '\'' :: rest) = some (text, rest) := by
  have hquote : ∀ c ∈ ('\'' :: rest).head?, isLiteral c = false := by
    rintro c ⟨⟩
    rfl
  rw [literalText?, Text.dropWhile_front htext hquote, Text.takeWhile_front htext hquote]
  rfl

/-- A key is read up to what is no part of it. -/
theorem keyPart?_spelled (h : Spelled key cs) (hrest : ∀ c ∈ rest.head?, isBare c = false) :
    keyPart? (cs ++ rest) = some (key, rest) := by
  have hname : String.ofList key.toList = key := String.ofList_toList
  cases h with
  | quoted htext =>
    rw [List.cons_append, List.append_assoc, keyPart?, basicText?]
    show (moreText? [] (key.toList ++ '"' :: rest)).map _ = _
    rw [moreText?_plain htext, Option.map_some, List.reverse_nil, List.nil_append]
    exact congrArg (fun key => some (key, rest)) hname
  | literal htext =>
    rw [List.cons_append, List.append_assoc, keyPart?]
    show (literalText? (key.toList ++ '\'' :: rest)).map _ = _
    rw [literalText?_literal htext, Option.map_some]
    exact congrArg (fun key => some (key, rest)) hname
  | bare hkey =>
    obtain ⟨hne, hbare⟩ := hkey
    have hword := Text.takeWhile_front hbare hrest
    have hbehind := Text.dropWhile_front hbare hrest
    cases hlist : key.toList with
    | nil => exact absurd hlist hne
    | cons c word =>
      rw [hlist] at hword hbehind hbare hname
      have hc := hbare c List.mem_cons_self
      unfold keyPart?
      split
      · rename_i heq
        cases heq
        cases hc
      · rename_i heq
        cases heq
        cases hc
      · -- Neither quote begins the key, so it is the longest run of bare characters.
        rw [hword, hbehind]
        exact congrArg (fun key => some (key, rest)) hname

/-- A character that a key may begin with. -/
def opensKey (c : Char) : Bool := isBare c || c == '"' || c == '\''

theorem Spelled.cons (h : Spelled key cs) : ∃ c tail, cs = c :: tail ∧ opensKey c = true := by
  cases h with
  | bare hkey =>
    obtain ⟨hne, hbare⟩ := hkey
    obtain ⟨c, word, hlist⟩ := List.exists_cons_of_ne_nil hne
    refine ⟨c, word, hlist, ?_⟩
    rw [opensKey, hbare c (hlist ▸ List.mem_cons_self)]
    rfl
  | quoted => exact ⟨_, _, rfl, rfl⟩
  | literal => exact ⟨_, _, rfl, rfl⟩

theorem not_isBare_of_isBlank {c : Char} (hc : isBlank c = true) : isBare c = false := by
  rw [isBlank, Bool.or_eq_true, beq_iff_eq, beq_iff_eq] at hc
  rcases hc with rfl | rfl <;> rfl

theorem not_isBlank_of_opensKey {c : Char} (hc : opensKey c = true) : isBlank c = false := by
  by_contra hblank
  rw [Bool.not_eq_false, isBlank, Bool.or_eq_true, beq_iff_eq, beq_iff_eq] at hblank
  rcases hblank with rfl | rfl <;> cases hc

theorem Spelled.head?_not_blank (h : Spelled key cs) (rest : List Char) :
    ∀ c ∈ (cs ++ rest).head?, isBlank c = false := by
  obtain ⟨c, tail, rfl, hc⟩ := h.cons
  rintro d ⟨⟩
  exact not_isBlank_of_opensKey hc

/-- A key and the equals sign are read, with the blanks around the sign. -/
theorem keyEquals?_spelled {left right : List Char} (hkey : Spelled key cs) (hleft : Blanks left)
    (hright : Blanks right) (hrest : ∀ c ∈ rest.head?, isBlank c = false) :
    keyEquals? (cs ++ (left ++ '=' :: (right ++ rest))) = some (([], key), rest) := by
  have hnotBare : ∀ c ∈ (left ++ '=' :: (right ++ rest)).head?, isBare c = false := by
    intro c hc
    have hnot : (!isBare c) = true :=
      Text.head?_front (p := fun c => !isBare c)
        (fun c hc => by rw [not_isBare_of_isBlank (hleft c hc)]; rfl) (by rintro c ⟨⟩; rfl) c hc
    simpa using hnot
  have hskip : skipBlanks (cs ++ (left ++ '=' :: (right ++ rest))) =
      cs ++ (left ++ '=' :: (right ++ rest)) := by
    have hnone : Blanks [] := nofun
    exact skipBlanks_front hnone (hkey.head?_not_blank _)
  have hequals : skipBlanks (left ++ '=' :: (right ++ rest)) = '=' :: (right ++ rest) :=
    skipBlanks_front hleft (by rintro c ⟨⟩; rfl)
  have hread : key? depthLimit (cs ++ (left ++ '=' :: (right ++ rest))) =
      some (([], key), '=' :: (right ++ rest)) := by
    rw [depthLimit, key?, hskip, keyPart?_spelled hkey hnotBare, Option.bind_eq_bind,
      Option.bind_some]
    simp only [hequals]
    rfl
  rw [keyEquals?, hread, Option.bind_eq_bind, Option.bind_some]
  show some (([], key), skipBlanks (right ++ rest)) = _
  rw [skipBlanks_front hright hrest]

/-! ### Lines -/

/-- The entries that definitions make. -/
def entriesOf (defs : List (String × Nat)) : Entries :=
  defs.map fun d => (d.1, .leaf (.integer d.2))

theorem define_fresh {es : Entries} (hfresh : es.find? key = none) (value : Value) :
    es.define [] key value = some (es ++ [(key, .leaf value)]) := by
  rw [Entries.define, Entries.within, if_neg (by simp), hfresh, if_neg (by simp)]

namespace Reading

/-- A definition behind its indent adds an entry, if there is none under its key. -/
theorem definition?_eq {es : Entries} {name left right number after : List Char}
    (hkey : Spelled key name) (hleft : Blanks left) (hright : Blanks right)
    (hnumber : Written n number) (hafter : Idle after) (hend : LineEnd tail rest)
    (hfresh : es.find? key = none) (hn : n < 1 <<< 63) :
    (Reading.mk es []).definition?
        (name ++ (left ++ '=' :: (right ++ (number ++ (after ++ tail))))) =
      some (⟨es ++ [(key, .leaf (.integer n))], []⟩, rest) := by
  -- The number begins where the blanks end.
  have hblank : ∀ c ∈ (number ++ (after ++ tail)).head?, isBlank c = false := by
    intro c hc
    by_contra hblank
    have hdelimits := delimits_of_isBlank (Bool.not_eq_false _ ▸ hblank)
    obtain ⟨d, digits, rfl, hd, _⟩ := hnumber.cons
    cases hc
    rcases hd with hd | rfl | rfl
    · rw [delimits_of_isDigit hd] at hdelimits
      cases hdelimits
    · cases hdelimits
    · cases hdelimits
  have hvalue : value? depthLimit (number ++ (after ++ tail)) =
      some (.integer n, after ++ tail) := value?_written hnumber (hafter.closed hend) hn _
  have hentries : es.within false [] .header (fun _ es => es.define [] key (.integer n)) =
      some (es ++ [(key, .leaf (.integer n))]) := define_fresh hfresh _
  simp only [definition?, keyEquals?_spelled hkey hleft hright hblank, hvalue,
    trailing?_idle hafter hend, hentries, Option.bind_eq_bind, Option.bind_some]
  rfl

theorem line?_of_opensKey {c : Char} (hc : opensKey c = true) (r : Reading) (cs : List Char) :
    r.line? (c :: cs) = r.definition? (c :: cs) := by
  have hne : ∀ d, opensKey d = false → c ≠ d := by
    rintro d hd rfl
    rw [hd] at hc
    cases hc
  have hline : newline? (c :: cs) = none := by
    rw [newline?]
    · exact fun _ h => hne '\n' rfl (List.cons.inj h).1
    · exact fun _ h => hne '\r' rfl (List.cons.inj h).1
  rw [line?, hline]
  · exact fun _ h => hne '#' rfl (List.cons.inj h).1
  · exact fun _ h => hne '[' rfl (List.cons.inj h).1
  · exact fun _ h => hne '[' rfl (List.cons.inj h).1

/-! ### All lines -/

theorem lines?_of_line? {r r' : Reading} {c : Char} {t : List Char} (hskip : skipBlanks cs = c :: t)
    (hline : r.line? (c :: t) = some (r', rest)) (lines : Nat) :
    r.lines? (lines + 1) cs = r'.lines? lines rest := by
  simp only [lines?, hskip, hline, Option.bind_eq_bind, Option.bind_some]

/-- A line that says nothing is read without effect. -/
theorem lines?_idle (h : Idle cs) (hend : LineEnd tail rest) (r : Reading) {lines : Nat}
    (hlines : (cs ++ tail).length < lines) :
    ∃ left, rest.length < left ∧ r.lines? lines (cs ++ tail) = r.lines? left rest := by
  -- The last line takes no step if it is not ended: what is left of it is read as the end.
  obtain ⟨lines, rfl⟩ := Nat.exists_eq_add_one_of_ne_zero (Nat.ne_zero_of_lt hlines)
  have hlength := hend.length_le
  rw [List.length_append] at hlines
  cases h with
  | blanks hcs =>
    have hskip := skipBlanks_front hcs hend.head?_not_blank
    cases hend with
    | feed => exact ⟨lines, by simp at hlines; omega, lines?_of_line? hskip rfl lines⟩
    | returnFeed => exact ⟨lines, by simp at hlines; omega, lines?_of_line? hskip rfl lines⟩
    | last =>
      refine ⟨1, by decide, ?_⟩
      rw [lines?, hskip]
      rfl
  | @comment cs text hcs htext =>
    have hskip : skipBlanks (cs ++ '#' :: text ++ tail) = '#' :: (text ++ tail) := by
      rw [List.append_assoc]
      exact skipBlanks_front hcs (by rintro c ⟨⟩; rfl)
    have hcomment : Idle ([] ++ '#' :: text) := .comment nofun htext
    have htrailing : trailing? ('#' :: (text ++ tail)) = some rest := trailing?_idle hcomment hend
    have hline : r.line? ('#' :: (text ++ tail)) = some (r, rest) := by
      rw [line?, htrailing]
      rfl
    exact ⟨lines, by simp at hlines; omega, lines?_of_line? hskip hline lines⟩

/-- A line that defines a number adds an entry. -/
theorem lines?_definition {es : Entries} (h : Definition key n cs) (hend : LineEnd tail rest)
    (hfresh : es.find? key = none) (hn : n < 1 <<< 63) (lines : Nat) :
    (Reading.mk es []).lines? (lines + 1) (cs ++ tail) =
      (Reading.mk (es ++ [(key, .leaf (.integer n))]) []).lines? lines rest := by
  obtain ⟨hindent, hkey, hleft, hright, hnumber, hafter⟩ := h
  have hdef := definition?_eq hkey hleft hright hnumber hafter hend hfresh hn
  have hblank := hkey.head?_not_blank
  obtain ⟨c, word, rfl, hc⟩ := hkey.cons
  simp only [List.append_assoc, List.cons_append] at hdef hblank ⊢
  refine lines?_of_line? (skipBlanks_front hindent (hblank _)) ?_ lines
  rw [line?_of_opensKey hc, hdef]

/-- All lines together add one entry for each definition, as long as no key is defined twice. -/
theorem lines?_defines (h : Defines defs cs) {es : Entries} {lines : Nat}
    (hnodup : ((es ++ entriesOf defs).map Prod.fst).Nodup) (hn : ∀ d ∈ defs, d.2 < 1 <<< 63)
    (hlines : cs.length < lines) :
    (Reading.mk es []).lines? lines cs = some ⟨es ++ entriesOf defs, []⟩ := by
  -- By induction on the lines; `es` are the entries that the lines in front have made.
  induction h generalizing es lines with
  | nil =>
    obtain ⟨lines, rfl⟩ := Nat.exists_eq_add_one_of_ne_zero (Nat.ne_zero_of_lt hlines)
    exact congrArg (fun es => some (Reading.mk es [])) (List.append_nil es).symm
  | idle hidle hend _ ih =>
    obtain ⟨left, hleft, hrun⟩ := lines?_idle hidle hend (Reading.mk es []) hlines
    rw [hrun, ih hnodup hn hleft]
  | @definition key n defs cs tail rest hdef hend _ ih =>
    obtain ⟨lines, rfl⟩ := Nat.exists_eq_add_one_of_ne_zero (Nat.ne_zero_of_lt hlines)
    obtain ⟨hn, hrest⟩ := List.forall_mem_cons.1 hn
    have hsplit : es ++ entriesOf ((key, n) :: defs) =
        (es ++ [(key, .leaf (.integer n))]) ++ entriesOf defs := by
      rw [List.append_assoc]
      rfl
    have hfresh : es.find? key = none := by
      rw [Entries.find?, List.lookup_eq_none_iff]
      intro e he
      rw [List.map_append, List.nodup_append] at hnodup
      have hne := hnodup.2.2 e.1 (List.mem_map_of_mem he) key List.mem_cons_self
      simpa using fun heq => hne heq.symm
    rw [lines?_definition hdef hend hfresh hn, hsplit]
    refine ih (hsplit ▸ hnodup) hrest ?_
    -- A definition has characters, so that there are enough lines left for what is behind it.
    have hlength := hend.length_le
    have hpos := hdef.length_pos
    rw [List.length_append] at hlines
    omega

end Reading

/-! ### The whole document -/

/-- A line begins with white space, a comment, its end or a key; so nothing stands in front of the
    first one. -/
theorem Defines.head?_front (h : Defines defs cs) :
    ∀ c ∈ cs.head?, (Delimits c || opensKey c) = true := by
  cases h with
  | nil => nofun
  | idle hidle hend _ =>
    intro c hc
    rw [hidle.closed hend c hc]
    rfl
  | definition hdef hend _ =>
    obtain ⟨hindent, hkey, _⟩ := hdef
    rw [List.append_assoc]
    refine Text.head?_front (p := fun c => Delimits c || opensKey c) ?_ ?_
    · intro c hc
      show (Delimits c || opensKey c) = true
      rw [delimits_of_isBlank (hindent c hc)]
      rfl
    · obtain ⟨c, word, rfl, hopens⟩ := hkey.cons
      rintro d ⟨⟩
      show (Delimits c || opensKey c) = true
      rw [hopens, Bool.or_true]

/-- **Documents that define numbers.** If each key is defined once and the numbers fit 63 bits, the
    document has the entries that its lines make, in their order. -/
theorem Document.parse?_defines {text : String} (h : Defines defs text.toList)
    (hnodup : (defs.map Prod.fst).Nodup) (hn : ∀ d ∈ defs, d.2 < 1 <<< 63) :
    parse? text = some (entriesOf defs) := by
  have hkeys : (([] ++ entriesOf defs).map Prod.fst).Nodup := by
    rw [List.nil_append, entriesOf, List.map_map]
    exact hnodup
  have hread := Reading.lines?_defines h hkeys hn (Nat.lt_succ_self _)
  unfold parse?
  split
  · -- No line begins with a byte-order mark.
    rename_i heq
    have hmark := h.head?_front '\uFEFF' (by rw [heq]; rfl)
    cases hmark
  · show (Reading.lines? (text.toList.length + 1) ⟨[], []⟩ text.toList).map (·.entries) = _
    rw [hread]
    rfl

end ArenaHeap.Toml
