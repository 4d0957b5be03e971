import Provenance.Proofs.Folding

/-!
Parts of strings. Positions count 16-bit units, strings consist of characters, and a slice of the
units of a text spells a text only where it takes every pair whole. The first main statement says
exactly which parts a string has and what they are; the second relates parts of parts, parts of a
concatenation and the concatenation of parts.
-/

set_option autoImplicit false

namespace Provenance.Text.Units

theorem encode_cons (c : Char) (text : List Char) : encode (c :: text) = ofChar c ++ encode text :=
  rfl

@[simp] theorem encode_append (a b : List Char) : encode (a ++ b) = encode a ++ encode b :=
  List.flatMap_append

theorem encode_injective {a b : List Char} (h : encode a = encode b) : a = b := by
  have hboth : decode (encode a) = decode (encode b) := by rw [h]
  simpa using hboth

theorem eq_nil_of_encode {text : List Char} (h : encode text = []) : text = [] :=
  encode_injective h

theorem decode_encode_append (text : List Char) (us : List Nat) :
    decode (encode text ++ us) = (decode us).map (text ++ ·) := by
  induction text with
  | nil => simp [encode]
  | cons c text ih =>
    rw [encode_cons, List.append_assoc, decode_ofChar_append, ih, Option.map_map]
    rfl

theorem ofChar_cases (c : Char) :
    (∃ u, ofChar c = [u]) ∨
      ∃ high low, ofChar c = [high, low] ∧ isHigh high = true ∧ isLow low = true := by
  have hc := toNat_lt_or_gt c
  unfold ofChar
  split
  · exact Or.inl ⟨_, rfl⟩
  · refine Or.inr ⟨_, _, rfl, ?_, ?_⟩
    · simp [isHigh]
      omega
    · simp [isLow]
      omega

theorem decode_low {u : Nat} (h : isLow u = true) (us : List Nat) : decode (u :: us) = none := by
  have hhigh : isHigh u = false := by
    simp [isLow] at h
    simp [isHigh]
    omega
  cases us <;> simp [decode, h, hhigh]

theorem decode_high {u : Nat} (h : isHigh u = true) : decode [u] = none := by
  simp [decode, h]

def between (us : List Nat) (start stop : Nat) (_ : start ≤ stop ∧ stop ≤ us.length) : List Nat :=
  (us.drop start).take (stop - start)

theorem length_between (us : List Nat) (start stop : Nat) (h : start ≤ stop ∧ stop ≤ us.length) :
    (between us start stop h).length = stop - start := by
  simp [between]
  omega

theorem between_self (us : List Nat) (i : Nat) (h : i ≤ i ∧ i ≤ us.length) :
    between us i i h = [] := by
  simp [between]

theorem between_zero (us : List Nat) (stop : Nat) (h : 0 ≤ stop ∧ stop ≤ us.length) :
    between us 0 stop h = us.take stop := rfl

theorem between_length (us : List Nat) (start : Nat)
    (h : start ≤ us.length ∧ us.length ≤ us.length) :
    between us start us.length h = us.drop start :=
  List.take_of_length_le (by simp)

theorem between_between {us vs : List Nat} {a b c d : Nat} {h : a ≤ b ∧ b ≤ us.length}
    (hvs : vs = between us a b h) (h' : c ≤ d ∧ d ≤ vs.length)
    (h'' : a + c ≤ a + d ∧ a + d ≤ us.length) :
    between vs c d h' = between us (a + c) (a + d) h'' := by
  subst hvs
  rw [length_between] at h'
  simp only [between, List.drop_take, List.take_take, List.drop_drop]
  congr 1
  omega

def Splits (text : List Char) (i : Nat) : Prop :=
  ∃ before c after, text = before ++ c :: after ∧ (ofChar c).length = 2 ∧
    i = (encode before).length + 1

theorem exists_parts_or_splits (text : List Char) {i : Nat} (h : i ≤ (encode text).length) :
    (∃ before after, text = before ++ after ∧ (encode before).length = i) ∨ Splits text i := by
  induction text generalizing i with
  | nil =>
    have hi : i = 0 := by simpa [encode] using h
    exact Or.inl ⟨[], [], rfl, by simp [encode, hi]⟩
  | cons c text ih =>
    rw [encode_cons, List.length_append] at h
    by_cases hzero : i = 0
    · exact Or.inl ⟨[], c :: text, rfl, by simp [encode, hzero]⟩
    · by_cases hinside : i < (ofChar c).length
      · -- Inside the first character there is at most one position.
        have hpair : (ofChar c).length = 2 ∧ i = 1 := by
          rcases ofChar_cases c with ⟨u, hu⟩ | ⟨u, w, hu, _⟩ <;> simp [hu] at hinside ⊢ <;> omega
        exact Or.inr ⟨[], c, text, rfl, hpair.1, by simp [encode, hpair.2]⟩
      · rcases ih (i := i - (ofChar c).length) (by omega) with
          ⟨before, after, rfl, hlength⟩ | ⟨before, d, after, rfl, hd, hlength⟩
        · refine Or.inl ⟨c :: before, after, rfl, ?_⟩
          rw [encode_cons, List.length_append]
          omega
        · refine Or.inr ⟨c :: before, d, after, rfl, hd, ?_⟩
          rw [encode_cons, List.length_append]
          omega

theorem exists_between_parts {a b c d : List Char} (h : a ++ b = c ++ d)
    (hlength : (encode a).length ≤ (encode c).length) : ∃ m, c = a ++ m ∧ b = m ++ d := by
  rcases List.append_eq_append_iff.1 h with ⟨m, hc, hb⟩ | ⟨m, ha, hd⟩
  · exact ⟨m, hc, hb⟩
  · have hm : m = [] := by
      apply eq_nil_of_encode
      rw [ha, encode_append, List.length_append] at hlength
      exact List.eq_nil_of_length_eq_zero (by omega)
    subst hm
    exact ⟨[], by simpa using ha.symm, by simpa using hd.symm⟩

theorem exists_slice {text : List Char} {start stop : Nat}
    (h : start ≤ stop ∧ stop ≤ (encode text).length) (hstart : ¬ Splits text start)
    (hstop : ¬ Splits text stop) :
    ∃ before part after, text = before ++ part ++ after ∧
      between (encode text) start stop h = encode part := by
  obtain ⟨before, rest, rfl, hbefore⟩ :=
    (exists_parts_or_splits text (h.1.trans h.2)).resolve_right hstart
  obtain ⟨front, after, hparts, hfront⟩ :=
    (exists_parts_or_splits _ h.2).resolve_right hstop
  obtain ⟨part, rfl, rfl⟩ := exists_between_parts hparts (by omega)
  refine ⟨before, part, after, by simp, ?_⟩
  rw [encode_append, List.length_append] at hfront
  subst hbefore
  subst hfront
  simp [between]

/-- Where the first position splits a pair, the slice begins with a low surrogate. -/
theorem decode_of_splits_start {text : List Char} {start stop : Nat}
    (h : start ≤ stop ∧ stop ≤ (encode text).length) (hlt : start < stop)
    (hsplits : Splits text start) : decode (between (encode text) start stop h) = none := by
  obtain ⟨before, c, after, rfl, hlength, rfl⟩ := hsplits
  rcases ofChar_cases c with ⟨u, hu⟩ | ⟨high, low, hu, _, hlow⟩
  · simp [hu] at hlength
  · obtain ⟨n, hn⟩ : ∃ n, stop - ((encode before).length + 1) = n + 1 :=
      ⟨stop - (encode before).length - 2, by omega⟩
    have hunits : encode (before ++ c :: after) =
        (encode before ++ [high]) ++ low :: encode after := by
      simp [encode_cons, hu]
    have hfront : (encode before).length + 1 = (encode before ++ [high]).length := by simp
    have hslice : between (encode (before ++ c :: after)) ((encode before).length + 1) stop h =
        low :: (encode after).take n := by
      rw [between, hn, hunits, hfront, List.drop_left, List.take_succ_cons]
    rw [hslice, decode_low hlow]

/-- Where only the second position splits a pair, the slice ends with a high surrogate. -/
theorem decode_of_splits_stop {text : List Char} {start stop : Nat}
    (h : start ≤ stop ∧ stop ≤ (encode text).length) (hlt : start < stop)
    (hstart : ¬ Splits text start) (hsplits : Splits text stop) :
    decode (between (encode text) start stop h) = none := by
  obtain ⟨before, rest, hparts, hbefore⟩ :=
    (exists_parts_or_splits text (h.1.trans h.2)).resolve_right hstart
  obtain ⟨front, c, after, htext, hlength, rfl⟩ := hsplits
  obtain ⟨part, rfl, _⟩ := exists_between_parts (hparts.symm.trans htext) (by omega)
  rcases ofChar_cases c with ⟨u, hu⟩ | ⟨high, low, hu, hhigh, _⟩
  · simp [hu] at hlength
  · have hunits : encode text =
        encode before ++ ((encode part ++ [high]) ++ low :: encode after) := by
      simp [htext, encode_cons, hu]
    have hcount : (encode (before ++ part)).length + 1 - start =
        (encode part ++ [high]).length := by
      simp
      omega
    have hslice : between (encode text) start ((encode (before ++ part)).length + 1) h =
        encode part ++ [high] := by
      rw [between, hcount, hunits, ← hbefore, List.drop_left, List.take_left]
    rw [hslice, decode_encode_append, decode_high hhigh, Option.map_none]

/-- Units that stand in a text spell a text exactly if there are none of them or no end splits a
pair. -/
theorem decode_between_isSome_iff {text : List Char} {start stop : Nat}
    (h : start ≤ stop ∧ stop ≤ (encode text).length) :
    (decode (between (encode text) start stop h)).isSome = true ↔
      start = stop ∨ ¬ Splits text start ∧ ¬ Splits text stop := by
  constructor
  · intro hsome
    by_contra hnot
    obtain ⟨hne, hcut⟩ := not_or.1 hnot
    have hlt : start < stop := by omega
    have hnone : decode (between (encode text) start stop h) = none := by
      by_cases hstart : Splits text start
      · exact decode_of_splits_start h hlt hstart
      · exact decode_of_splits_stop h hlt hstart (by tauto)
    simp [hnone] at hsome
  · rintro (rfl | ⟨hstart, hstop⟩)
    · simp [between_self, decode]
    · obtain ⟨_, part, _, _, hpart⟩ := exists_slice h hstart hstop
      simp [hpart]

theorem infix_of_decode_between {text part : List Char} {start stop : Nat}
    (h : start ≤ stop ∧ stop ≤ (encode text).length)
    (hpart : decode (between (encode text) start stop h) = some part) :
    part <:+: text ∧ encode part = between (encode text) start stop h := by
  have hsome : (decode (between (encode text) start stop h)).isSome = true := by simp [hpart]
  rcases (decode_between_isSome_iff h).1 hsome with rfl | ⟨hstart, hstop⟩
  · rw [between_self] at hpart ⊢
    obtain rfl : [] = part := by simpa [decode] using hpart
    exact ⟨List.nil_infix, rfl⟩
  · obtain ⟨before, m, after, htext, hm⟩ := exists_slice h hstart hstop
    rw [hm, decode_encode] at hpart
    obtain rfl := Option.some.inj hpart
    exact ⟨⟨before, after, htext.symm⟩, hm.symm⟩

end Provenance.Text.Units

namespace Provenance.Constant

open Text.Units

theorem isUnresolved_valueOf {c : Constant} (h : c.isUnresolved = true) :
    c.valueOf.isUnresolved = true := by
  obtain ⟨s, rfl, hs⟩ := (isUnresolved_iff c).1 h
  exact (isUnresolved_iff _).2 ⟨s, rfl, hs⟩

def stopIn (s : String) (stop : Option Int) : Int := stop.getD (encode s.toList).length

structure Within (s : String) (start stop : Int) : Prop where
  nonneg : 0 ≤ start
  ordered : start ≤ stop
  bounded : stop ≤ (encode s.toList).length

theorem Within.toNat {s : String} {start stop : Int} (h : Within s start stop) :
    start.toNat ≤ stop.toNat ∧ stop.toNat ≤ (encode s.toList).length := by
  have := h.ordered
  have := h.bounded
  omega

theorem substring?_str {s : String} (hmarker : (str s).isUnresolved = false) (start : Int)
    (stop : Option Int) :
    (str s).substring? start stop =
      if 0 ≤ start ∧ 0 ≤ stopIn s stop then
        (slice s.toList start.toNat (stopIn s stop).toNat).map fun cs => .str (String.ofList cs)
      else none := by
  simp only [substring?, hmarker, Bool.false_eq_true, if_false]
  rfl

theorem substring?_of_within {s : String} (hmarker : (str s).isUnresolved = false) {start : Int}
    {stop : Option Int} (h : Within s start (stopIn s stop)) :
    (str s).substring? start stop =
      (decode (between (encode s.toList) start.toNat (stopIn s stop).toNat h.toNat)).map
        fun cs => .str (String.ofList cs) := by
  have hnonneg : 0 ≤ start ∧ 0 ≤ stopIn s stop := ⟨h.nonneg, h.nonneg.trans h.ordered⟩
  rw [substring?_str hmarker, if_pos hnonneg, slice, if_pos h.toNat]
  rfl

theorem substring?_of_not_within {s : String} {start : Int} {stop : Option Int}
    (h : ¬ Within s start (stopIn s stop)) : (str s).substring? start stop = none := by
  cases hmarker : (str s).isUnresolved with
  | true => exact substring?_of_isUnresolved hmarker start stop
  | false =>
    rw [substring?_str hmarker]
    split
    · rename_i hnonneg
      rw [slice, if_neg, Option.map_none]
      rintro ⟨hordered, hbounded⟩
      exact h ⟨hnonneg.1, by omega, by omega⟩
    · rfl

theorem exists_str_of_substring? {c d : Constant} {start : Int} {stop : Option Int}
    (h : c.substring? start stop = some d) :
    ∃ s, c = .str s ∧ c.isUnresolved = false ∧ Within s start (stopIn s stop) := by
  cases hmarker : c.isUnresolved with
  | true => simp [substring?_of_isUnresolved hmarker] at h
  | false =>
    cases c with
    | str s =>
      refine ⟨s, rfl, rfl, ?_⟩
      by_contra hout
      simp [substring?_of_not_within hout] at h
    | _ => simp [substring?] at h

theorem exists_part_of_substring? {s : String} {d : Constant} {start : Int} {stop : Option Int}
    (h : (str s).substring? start stop = some d) :
    ∃ (t : String) (hin : Within s start (stopIn s stop)), d = .str t ∧
      t.toList <:+: s.toList ∧
      encode t.toList =
        between (encode s.toList) start.toNat (stopIn s stop).toNat hin.toNat := by
  obtain ⟨_, hs, hmarker, hin⟩ := exists_str_of_substring? h
  obtain rfl := Constant.str.inj hs
  rw [substring?_of_within hmarker hin] at h
  obtain ⟨cs, hcs, rfl⟩ := Option.map_eq_some_iff.1 h
  obtain ⟨hinside, hunits⟩ := infix_of_decode_between _ hcs
  exact ⟨_, hin, rfl, by simpa using hinside, by simpa using hunits⟩

/-- Which parts a string has: those that lie within it and, unless they are empty, take no pair
apart. No units are looked at outside the string, and the part has the units between the
positions. -/
theorem substring?_exact (c : Constant) (start : Int) (stop : Option Int) :
    (∀ s, c = .str s → c.isUnresolved = false →
      (∀ h : Within s start (stopIn s stop), c.substring? start stop =
        (decode (between (encode s.toList) start.toNat (stopIn s stop).toNat h.toNat)).map
          fun cs => .str (String.ofList cs)) ∧
      (¬ Within s start (stopIn s stop) → c.substring? start stop = none)) ∧
    ((c.substring? start stop).isSome = true ↔
      ∃ s, c = .str s ∧ ¬ unresolvedMarker.toList <:+: s.toList ∧
        Within s start (stopIn s stop) ∧
        (start = stopIn s stop ∨
          ¬ Splits s.toList start.toNat ∧ ¬ Splits s.toList (stopIn s stop).toNat)) ∧
    ∀ d, c.substring? start stop = some d →
      ∃ (s t : String) (h : Within s start (stopIn s stop)), c = .str s ∧ d = .str t ∧
        encode t.toList =
          between (encode s.toList) start.toNat (stopIn s stop).toNat h.toNat := by
  refine ⟨?_, ?_, ?_⟩
  · rintro s rfl hmarker
    exact ⟨substring?_of_within hmarker, substring?_of_not_within⟩
  · constructor
    · intro hsome
      obtain ⟨d, hd⟩ := Option.isSome_iff_exists.1 hsome
      obtain ⟨s, rfl, hmarker, hin⟩ := exists_str_of_substring? hd
      refine ⟨s, rfl, ?_, hin, ?_⟩
      · intro hinside
        rw [(isUnresolved_iff _).2 ⟨s, rfl, hinside⟩] at hmarker
        contradiction
      · rw [substring?_of_within hmarker hin, Option.isSome_map, decode_between_isSome_iff] at hsome
        have := hin.nonneg
        have := hin.ordered
        exact hsome.imp_left fun heq => by omega
    · rintro ⟨s, rfl, hinside, hin, hwhole⟩
      have hmarker : (str s).isUnresolved = false := by
        by_contra hm
        obtain ⟨_, hs, hfound⟩ := (isUnresolved_iff _).1 (by simpa using hm)
        exact hinside (Constant.str.inj hs ▸ hfound)
      rw [substring?_of_within hmarker hin, Option.isSome_map, decode_between_isSome_iff]
      exact hwhole.imp_left fun heq => by rw [← heq]
  · intro d hd
    obtain ⟨s, rfl, _, _⟩ := exists_str_of_substring? hd
    obtain ⟨t, hin, hd, _, hunits⟩ := exists_part_of_substring? hd
    exact ⟨s, t, hin, rfl, hd, hunits⟩

theorem substring?_exact_of_pair :
    ((str "a😀b").substring? 1 (some 3) = some (.str "😀") ∧
      encode "😀".toList = ((encode "a😀b".toList).drop 1).take 2) ∧
    (Splits "a😀b".toList 2 ∧ (str "a😀b").substring? 2 none = none) ∧
    (str "a😀b").substring? 2 (some 2) = some (.str "") := by
  have hpair : (str "a😀b").substring? 1 (some 3) = some (.str "😀") := by decide +kernel
  have hsplits : Splits "a😀b".toList 2 := ⟨['a'], '😀', ['b'], rfl, rfl, rfl⟩
  refine ⟨⟨hpair, ?_⟩, ⟨hsplits, ?_⟩, by decide +kernel⟩
  · obtain ⟨s, t, _, hs, ht, hunits⟩ := (substring?_exact (.str "a😀b") 1 (some 3)).2.2 _ hpair
    obtain rfl := Constant.str.inj hs
    obtain rfl := Constant.str.inj ht
    exact hunits
  · by_contra hsome
    obtain ⟨s, hs, _, _, hwhole⟩ :=
      (substring?_exact (.str "a😀b") 2 none).2.1.1 (Option.isSome_iff_ne_none.2 hsome)
    obtain rfl := Constant.str.inj hs
    rcases hwhole with hempty | ⟨hstart, _⟩
    · exact absurd hempty (by decide)
    · exact hstart hsplits

theorem isUnresolved_of_part {s t : String} (h : t.toList <:+: s.toList)
    (hs : (str s).isUnresolved = false) : (str t).isUnresolved = false := by
  by_contra ht
  obtain ⟨_, heq, hmarker⟩ := (isUnresolved_iff _).1 (by simpa using ht)
  obtain rfl := Constant.str.inj heq
  rw [(isUnresolved_iff _).2 ⟨s, rfl, hmarker.trans h⟩] at hs
  contradiction

/-- A part of a part is a part of the whole. That the inner part is not refused rests on the marker
standing in the whole if it stands in a part. -/
theorem substring?_of_part {s : String} {a b c d : Int} {u : Constant}
    (h : (str s).substring? a (some b) = some u) (hc : 0 ≤ c) (hcd : c ≤ d) (hd : d ≤ b - a) :
    u.substring? c (some d) = (str s).substring? (a + c) (some (a + d)) := by
  obtain ⟨_, hs, hmarker, _⟩ := exists_str_of_substring? h
  obtain ⟨t, hin, rfl, hinside, hunits⟩ := exists_part_of_substring? h
  obtain ⟨hnonneg, hordered, hbounded⟩ := hin
  simp only [stopIn, Option.getD_some] at hordered hbounded hunits
  have hlength : (encode t.toList).length = b.toNat - a.toNat := by rw [hunits, length_between]
  have hpart : Within t c (stopIn t (some d)) :=
    ⟨hc, hcd, by simp only [stopIn, Option.getD_some]; omega⟩
  have hwhole : Within s (a + c) (stopIn s (some (a + d))) :=
    ⟨by omega, by simp only [stopIn, Option.getD_some]; omega,
      by simp only [stopIn, Option.getD_some]; omega⟩
  have hstart : (a + c).toNat = a.toNat + c.toNat := by omega
  have hstop : (a + d).toNat = a.toNat + d.toNat := by omega
  rw [substring?_of_within (isUnresolved_of_part hinside hmarker) hpart,
    substring?_of_within hmarker hwhole]
  simp only [stopIn, Option.getD_some, hstart, hstop]
  rw [between_between hunits]

theorem concat_of_parts {s : String} {k : Int} {p q : Constant}
    (hp : (str s).substring? 0 (some k) = some p) (hq : (str s).substring? k none = some q) :
    p.concat q = .str s := by
  obtain ⟨t, hin, rfl, _, ht⟩ := exists_part_of_substring? hp
  obtain ⟨r, _, rfl, _, hr⟩ := exists_part_of_substring? hq
  have hunits : encode (t.toList ++ r.toList) = encode s.toList := by
    simp only [stopIn, Option.getD_some, Option.getD_none, Int.toNat_zero, Int.toNat_natCast]
      at ht hr
    rw [encode_append, ht, hr, between_zero, between_length, List.take_append_drop]
  have hchars : t.toList ++ r.toList = s.toList := encode_injective hunits
  show str (t ++ r) = str s
  rw [← String.toList_inj.1 ((String.toList_append).trans hchars)]

/-- The parts of a concatenation at its seam. A marker may stand across the seam of two strings that
lack it. -/
theorem substring?_append {s t : String} (h : (str (s ++ t)).isUnresolved = false) :
    (str (s ++ t)).substring? 0 (some (encode s.toList).length) = some (.str s) ∧
      (str (s ++ t)).substring? (encode s.toList).length none = some (.str t) := by
  have hunits : encode (s ++ t).toList = encode s.toList ++ encode t.toList := by simp
  have hlength : (encode (s ++ t).toList).length =
      (encode s.toList).length + (encode t.toList).length := by simp
  have hfront : Within (s ++ t) 0 (stopIn (s ++ t) (some (encode s.toList).length)) :=
    ⟨le_refl 0, by simp [stopIn], by simp only [stopIn, Option.getD_some]; omega⟩
  have hback : Within (s ++ t) (encode s.toList).length (stopIn (s ++ t) none) :=
    ⟨by omega, by simp only [stopIn, Option.getD_none]; omega, le_refl _⟩
  constructor
  · rw [substring?_of_within h hfront]
    simp [between, stopIn]
  · rw [substring?_of_within h hback]
    simp only [stopIn, Option.getD_none, Int.toNat_natCast]
    rw [between_length, hunits, List.drop_left, decode_encode]
    simp

theorem concat_assoc (x y z : Constant) : (x.concat y).concat z = x.concat (y.concat z) :=
  congrArg str (String.append_assoc ..)

/-- How parts and concatenations go together. -/
theorem parts_and_concatenations (s t : String) :
    (∀ a b c d : Int, ∀ u, (str s).substring? a (some b) = some u → 0 ≤ c → c ≤ d → d ≤ b - a →
      u.substring? c (some d) = (str s).substring? (a + c) (some (a + d))) ∧
    (∀ k : Int, ∀ p q, (str s).substring? 0 (some k) = some p →
      (str s).substring? k none = some q → p.concat q = .str s) ∧
    (let whole := (str s).concat (str t)
     let front := whole.substring? 0 (some (encode s.toList).length)
     let back := whole.substring? (encode s.toList).length none
     (front = some (.str s) ∧ back = some (.str t) ↔ whole.isUnresolved = false) ∧
       (whole.isUnresolved = true → front = none ∧ back = none)) ∧
    (∀ x y z : Constant, (x.concat y).concat z = x.concat (y.concat z)) ∧
    (∀ x y : Constant, x.isUnresolved = true ∨ y.isUnresolved = true →
      (x.concat y).isUnresolved = true ∧ ∀ start stop, (x.concat y).substring? start stop = none) ∧
    ∀ x : Constant, x.isUnresolved = true →
      x.valueOf.isUnresolved = true ∧ ∀ start stop, x.valueOf.substring? start stop = none := by
  refine ⟨fun a b c d u hu => substring?_of_part hu, fun k p q => concat_of_parts, ?_, concat_assoc,
    ?_, ?_⟩
  · intro whole front back
    refine ⟨⟨?_, substring?_append⟩, fun hwhole => ?_⟩
    · rintro ⟨hfront, _⟩
      obtain ⟨_, _, hmarker, _⟩ := exists_str_of_substring? hfront
      exact hmarker
    · exact ⟨substring?_of_isUnresolved hwhole _ _, substring?_of_isUnresolved hwhole _ _⟩
  · intro x y hxy
    have hmarked := isUnresolved_concat hxy
    exact ⟨hmarked, substring?_of_isUnresolved hmarked⟩
  · intro x hx
    have hmarked := isUnresolved_valueOf hx
    exact ⟨hmarked, substring?_of_isUnresolved hmarked⟩

/-- A string with a pair is cut behind the pair and put together again; two strings without the
marker make one with it. -/
theorem parts_and_concatenations_of_pair :
    ((str "a😀b").substring? 1 (some 4) = some (.str "😀b") ∧
      (str "😀b").substring? 0 (some 2) = (str "a😀b").substring? 1 (some 3)) ∧
    ((str "a😀b").substring? 0 (some 3) = some (.str "a😀") ∧
      (str "a😀b").substring? 3 none = some (.str "b") ∧
      (str "a😀").concat (.str "b") = .str "a😀b") ∧
    ((str "UNKNOWN").isUnresolved = false ∧ (str "_STRING").isUnresolved = false ∧
      ((str "UNKNOWN").concat (.str "_STRING")).substring? 7 none = none) := by
  have hinner : (str "a😀b").substring? 1 (some 4) = some (.str "😀b") := by decide +kernel
  have hfront : (str "a😀b").substring? 0 (some 3) = some (.str "a😀") := by decide +kernel
  have hback : (str "a😀b").substring? 3 none = some (.str "b") := by decide +kernel
  obtain ⟨hpart, hparts, _⟩ := parts_and_concatenations "a😀b" ""
  obtain ⟨_, _, ⟨_, hseam⟩, _⟩ := parts_and_concatenations "UNKNOWN" "_STRING"
  refine ⟨⟨hinner, hpart 1 4 0 2 _ hinner (by decide) (by decide) (by decide)⟩,
    ⟨hfront, hback, hparts 3 _ _ hfront hback⟩, ?_, ?_, ?_⟩
  · decide +kernel
  · decide +kernel
  · have hmarked : ((str "UNKNOWN").concat (.str "_STRING")).isUnresolved = true := by
      decide +kernel
    exact (hseam hmarked).2

end Provenance.Constant
