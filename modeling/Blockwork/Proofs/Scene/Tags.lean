import Blockwork.Proofs.Decimal.Plain
import Blockwork.Proofs.Scene.Markup
import Blockwork.Scene.Svg

/-! # The tags of documents

The names in a tag are known, and its values are numbers, colours and a few words. All of them are
letters, digits and signs that stand for themselves, so a tag reads back as it was written, and it
holds no character that no document may hold.
-/

set_option autoImplicit false

namespace Blockwork.Svg

/-- The characters of numbers and colours: they stand for themselves in every place. -/
def isTame (c : Char) : Bool := Xml.isQuiet c && c.toNat < 0x7F

def Tame (text : String) : Prop := text.toList.all isTame = true

theorem Tame.all {text : String} (h : Tame text) : ∀ c ∈ text.toList, isTame c = true :=
  List.all_eq_true.mp h

theorem tame_ofList {cs : List Char} (h : ∀ c ∈ cs, isTame c = true) : Tame (String.ofList cs) := by
  rwa [Tame, String.toList_ofList, List.all_eq_true]

theorem Tame.append {s t : String} (hs : Tame s) (ht : Tame t) : Tame (s ++ t) := by
  rw [Tame, String.toList_append, List.all_append, hs, ht]
  rfl

theorem isTame_digitChar : ∀ d < 16, isTame d.digitChar = true := by
  decide +kernel

theorem isTame_of_mem_toDigits {b : Nat} (hb : 1 < b) (hMost : b ≤ 16) (n : Nat) :
    ∀ c ∈ Nat.toDigits b n, isTame c = true := by
  induction n using Nat.strongRecOn with
  | ind n ih =>
    intro c hc
    by_cases hn : n < b
    · rw [Nat.toDigits_of_lt_base hn, List.mem_singleton] at hc
      rw [hc]
      exact isTame_digitChar n (by omega)
    · rw [Nat.toDigits_of_base_le hb (Nat.le_of_not_lt hn), List.mem_append,
        List.mem_singleton] at hc
      rcases hc with hc | rfl
      · exact ih (n / b) (Nat.div_lt_self (by omega) hb) c hc
      · have hDigit : n % b < b := Nat.mod_lt n (by omega)
        exact isTame_digitChar (n % b) (by omega)

theorem tame_zeros (k : Nat) : Tame (NumeralStyle.zeros k) := by
  refine tame_ofList fun c hc => ?_
  rw [List.eq_of_mem_replicate hc]
  rfl

theorem tame_magnitude (d : Decimal) : Tame (NumeralStyle.plain.magnitude d) := by
  have hDigits := isTame_of_mem_toDigits (b := 10) (by decide) (by decide) d.coefficient
  rw [NumeralStyle.magnitude_plain]
  generalize Nat.toDigits 10 d.coefficient = digits at hDigits
  have hPart (part : List Char) (h : part ⊆ digits) : Tame (String.ofList part) :=
    tame_ofList fun c hc => hDigits c (h hc)
  have hAll : Tame (String.ofList digits) := tame_ofList hDigits
  have hPoint : Tame "." := rfl
  have hZeroPoint : Tame "0." := rfl
  cases d.exponent with
  | ofNat e => exact (hAll.append (tame_zeros e)).append rfl
  | negSucc e =>
    dsimp only [NumeralStyle.positionally]
    split
    · exact ((hPart _ (List.take_subset ..)).append hPoint).append (hPart _ (List.drop_subset ..))
    · exact (hZeroPoint.append (tame_zeros _)).append hAll

theorem tame_number (x : Float) : Tame (number x) := by
  have hMinus : Tame "-" := rfl
  have hSign : Tame (if Written.signBit x then "-" else "") := by
    split
    · exact hMinus
    · rfl
  have hNaN : Tame "NaN" := rfl
  have hInfinite : Tame "inf" := rfl
  unfold number NumeralStyle.write
  split
  · exact hNaN
  · dsimp only
    split
    · exact hSign.append (tame_magnitude _)
    · exact hSign.append hInfinite

theorem tame_toHex (c : Color) : Tame c.toHex := by
  have hDigits := isTame_of_mem_toDigits (b := 16) (by decide) (by decide)
    (c.word.toNat % 0x1000000)
  have hHash : Tame "#" := rfl
  refine hHash.append (tame_ofList fun d hd => ?_)
  rcases List.mem_append.mp hd with hd | hd
  · rw [List.eq_of_mem_replicate hd]
    rfl
  · exact hDigits d hd

def tag : Primitive Float → String
  | .roundRect .. => "rect"
  | .circle .. => "circle"
  | .label .. => "text"
  | .line .. => "line"

def attributes : Primitive Float → List (String × String)
  | .roundRect rect radius fill opacity =>
    [("x", number rect.x0), ("y", number rect.y0), ("width", number rect.width),
      ("height", number rect.height), ("rx", number radius), ("fill", fill.toHex)] ++
      if opacity < 1.0 then [("fill-opacity", number opacity)] else []
  | .circle center radius fill =>
    [("cx", number center.x), ("cy", number center.y), ("r", number radius), ("fill", fill.toHex)]
  | .label _ center size color =>
    [("x", number center.x), ("y", number center.y), ("font-family", "sans-serif"),
      ("font-size", number size), ("fill", color.toHex), ("text-anchor", "middle"),
      ("dominant-baseline", "central")]
  | .line start stop width color =>
    [("x1", number start.x), ("y1", number start.y), ("x2", number stop.x), ("y2", number stop.y),
      ("stroke", color.toHex), ("stroke-width", number width)]

def surface (size : Size Float) : List (String × String) :=
  let w := number size.width
  let h := number size.height
  [("xmlns", "http://www.w3.org/2000/svg"), ("width", w), ("height", h),
    ("viewBox", "0 0 " ++ w ++ " " ++ h)]

def Keys (keys : List String) : Prop :=
  keys.Nodup ∧ ∀ key ∈ keys, Xml.IsName key ∧ Tame key

instance (keys : List String) : Decidable (Keys keys) :=
  have (key : String) : Decidable (Xml.IsName key) := inferInstanceAs (Decidable (_ ∧ _))
  have (key : String) : Decidable (Tame key) := inferInstanceAs (Decidable (_ = _))
  inferInstanceAs (Decidable (_ ∧ ∀ key ∈ keys, _))

/-- What the tags of documents have in common. -/
structure Plain (pairs : List (String × String)) : Prop where
  keys : Keys (pairs.map (·.1))
  values : ∀ pair ∈ pairs, Tame pair.2

theorem plain_attributes (p : Primitive Float) : Plain (attributes p) := by
  have hFont : Tame "sans-serif" := rfl
  have hAnchor : Tame "middle" := rfl
  have hBaseline : Tame "central" := rfl
  constructor
  · cases p with
    | roundRect _ _ _ opacity =>
      by_cases hOpacity : opacity < 1.0
      all_goals
        simp only [attributes, hOpacity, if_true, if_false, List.cons_append, List.nil_append,
          List.append_nil, List.map_cons, List.map_nil]
        decide +kernel
    | _ =>
      simp only [attributes, List.map_cons, List.map_nil]
      decide +kernel
  · cases p with
    | roundRect _ _ _ opacity =>
      by_cases hOpacity : opacity < 1.0
      all_goals simp [attributes, hOpacity, tame_number, tame_toHex]
    | label => simp [attributes, tame_number, tame_toHex, hFont, hAnchor, hBaseline]
    | _ => simp [attributes, tame_number, tame_toHex]

theorem plain_surface (size : Size Float) : Plain (surface size) := by
  have hSpace : Tame "http://www.w3.org/2000/svg" := rfl
  have hOrigin : Tame "0 0 " := rfl
  have hBetween : Tame " " := rfl
  have hView : Tame ("0 0 " ++ number size.width ++ " " ++ number size.height) :=
    ((hOrigin.append (tame_number _)).append hBetween).append (tame_number _)
  constructor
  · simp only [surface, List.map_cons, List.map_nil]
    decide +kernel
  · simp [surface, tame_number, hSpace, hView]

theorem key_tag (p : Primitive Float) : Xml.IsName (tag p) ∧ Tame (tag p) := by
  have hKeys : Keys ["rect", "circle", "text", "line"] := by decide +kernel
  cases p
  all_goals exact hKeys.2 _ (by simp [tag])

theorem key_svg : Xml.IsName "svg" ∧ Tame "svg" := by
  have hKeys : Keys ["svg"] := by decide +kernel
  exact hKeys.2 _ List.mem_cons_self

theorem Plain.legible {pairs : List (String × String)} (h : Plain pairs) : Xml.Legible pairs where
  names pair hPair := (h.keys.2 _ (List.mem_map_of_mem hPair)).1
  values pair hPair c hc := by
    have hTame := (h.values pair hPair).all c hc
    rw [isTame, Bool.and_eq_true] at hTame
    exact hTame.1
  once := h.keys.1

theorem toList_field (name value : String) :
    (field name value).toList = Xml.attributeText (name, value) := by
  simp [field, Xml.attributeText]

theorem toList_fields (pairs : List (String × String)) :
    (fields pairs).toList = Xml.attributes pairs := by
  simp [fields, Xml.attributes, List.flatMap_map, String.toList_join, toList_field]

/-! ## Characters -/

/-- The characters that a document may hold: of the controls only tab, line feed and carriage
return, and none of the two last ones of the first plane. -/
def isCharacter (c : Char) : Bool :=
  c = '\t' || c = '\n' || c = '\r' ||
    (0x20 ≤ c.toNat && c.toNat != 0xFFFE && c.toNat != 0xFFFF)

def strange (cs : List Char) : List Char := cs.filter (!isCharacter ·)

theorem strange_append (cs ds : List Char) : strange (cs ++ ds) = strange cs ++ strange ds :=
  List.filter_append ..

theorem isCharacter_of_isTame {c : Char} (h : isTame c = true) : isCharacter c = true := by
  simp only [isTame, Xml.isQuiet, Bool.and_eq_true, decide_eq_true_eq] at h
  obtain ⟨⟨⟨⟨hLeast, -⟩, -⟩, -⟩, hMost⟩ := h
  simp only [isCharacter, Bool.or_eq_true, Bool.and_eq_true, decide_eq_true_eq, bne_iff_ne]
  omega

theorem Tame.strange {text : String} (h : Tame text) : strange text.toList = [] :=
  List.filter_eq_nil_iff.mpr fun c hc => by simp [isCharacter_of_isTame (h.all c hc)]

theorem strange_nil : strange [] = [] :=
  rfl

theorem strange_cons {c : Char} (h : isCharacter c = true) (cs : List Char) :
    strange (c :: cs) = strange cs :=
  List.filter_cons_of_neg (by simp [h])

theorem strange_flatMap {α : Type} (as : List α) (f : α → List Char) :
    strange (as.flatMap f) = as.flatMap fun a => strange (f a) :=
  List.filter_flatMap

theorem Plain.strange {pairs : List (String × String)} (h : Plain pairs) :
    strange (Xml.attributes pairs) = [] := by
  rw [Xml.attributes, strange_flatMap, List.flatMap_eq_nil_iff]
  intro pair hPair
  have hKey := (h.keys.2 _ (List.mem_map_of_mem hPair)).2.strange
  have hValue := (h.values pair hPair).strange
  simp (disch := decide) only [Xml.attributeText, strange_append, strange_cons, strange_nil, hKey,
    hValue, List.append_nil]

end Blockwork.Svg
