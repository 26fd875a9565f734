import Blockwork.Proofs.Block.Grafting
import Blockwork.Proofs.Scene.Tags

/-! # What a document says

The document of a scene reads as one element that holds one element for each primitive, in drawing
order, and a label reads back as it was. A label is also the one place where a document can hold
what no document may hold.
-/

set_option autoImplicit false

namespace Blockwork

section

variable {K : Type}

def Primitive.label? : Primitive K → Option String
  | .label text .. => some text
  | _ => none

def Scene.labels (scene : Scene K) : List String := scene.items.flatMap (·.label?.toList)

end

namespace Svg

def node? (p : Primitive Float) : Option Xml.Node :=
  match p.label? with
  | none => some (.element (tag p) (attributes p) [])
  | some text => if text.isEmpty then none else some (.element (tag p) (attributes p) [.text text])

def line (p : Primitive Float) : List Xml.Node :=
  match node? p with
  | none => []
  | some node => [.text "\n  ", node]

/-- What a document says. -/
def root (scene : Scene Float) : Xml.Node :=
  .element "svg" (surface scene.size) (scene.items.flatMap line ++ [.text "\n"])

theorem toList_element {p : Primitive Float} (h : p.label? = none) :
    (element p).toList = ' ' :: ' ' ::
      ('<' :: ((tag p).toList ++ (Xml.attributes (attributes p) ++ ['/', '>'])) ++ ['\n']) := by
  cases p with
  | roundRect _ _ _ opacity =>
    by_cases hOpacity : opacity < 1.0
    · simp [element, attributes, tag, hOpacity, toList_field, toList_fields, Xml.attributes]
    · simp [element, attributes, tag, hOpacity, toList_fields]
  | circle => simp [element, toList_fields, attributes, tag]
  | label => cases h
  | line => simp [element, toList_fields, attributes, tag]

theorem toList_element_label {p : Primitive Float} {text : String} (h : p.label? = some text) :
    (element p).toList =
      if text.isEmpty then []
      else ' ' :: ' ' :: (('<' :: ((tag p).toList ++ (Xml.attributes (attributes p) ++ ['>']))) ++
        ((content text).toList ++ ('<' :: '/' :: ((tag p).toList ++ ['>']))) ++ ['\n']) := by
  cases p with
  | label written =>
    obtain rfl := Option.some.inj h
    by_cases hEmpty : written.isEmpty
    · simp [element, hEmpty]
    · simp [element, hEmpty, toList_fields, attributes, tag]
  | _ => cases h

theorem escape_cases (c : Char) :
    (escape c).toList = [c] ∧ Xml.isPlain c = true ∨ c = '&' ∨ c = '<' ∨ c = '>' ∨ c = '"' := by
  by_cases hNamed : c = '&' ∨ c = '<' ∨ c = '>' ∨ c = '"'
  · exact .inr hNamed
  · simp only [not_or] at hNamed
    exact .inl ⟨by simp [escape, hNamed], by simp [Xml.isPlain, hNamed]⟩

section

variable {frames : List Xml.Frame} {frame : Xml.Frame} {text cs : List Char} {node : Xml.Node}

theorem reads_escape (c : Char) :
    Xml.Reads ⟨frames, .content text⟩ (escape c).toList ⟨frames, .content (text ++ [c])⟩ := by
  obtain ⟨hSelf, hPlain⟩ | rfl | rfl | rfl | rfl := escape_cases c
  · rw [hSelf]
    exact Xml.reads_plain (List.forall_mem_singleton.mpr hPlain)
  all_goals rfl

theorem reads_content (written : String) :
    Xml.Reads ⟨frames, .content text⟩ (content written).toList
      ⟨frames, .content (text ++ written.toList)⟩ := by
  rw [content, String.toList_join, List.flatMap_map]
  induction written.toList generalizing text with
  | nil =>
    rw [List.append_nil]
    exact .nil _
  | cons c cs ih =>
    have hRest : Xml.Reads ⟨frames, .content (text ++ [c])⟩ (cs.flatMap fun d => (escape d).toList)
        ⟨frames, .content (text ++ [c] ++ cs)⟩ := ih
    rw [List.append_assoc] at hRest
    exact (reads_escape c).append hRest

theorem reads_line
    (h : Xml.Reads ⟨frame :: frames, .content ['\n', ' ', ' ']⟩ cs
      ⟨{ frame with content := frame.content ++ [.text "\n  "] ++ [node] } :: frames,
        .content []⟩) :
    Xml.Reads ⟨frame :: frames, .content ['\n']⟩ (' ' :: ' ' :: (cs ++ ['\n']))
      ⟨{ frame with content := frame.content ++ [.text "\n  ", node] } :: frames,
        .content ['\n']⟩ := by
  rw [List.append_assoc] at h
  exact .cons rfl (.cons rfl (h.append (.cons rfl (.nil _))))

theorem reads_element (p : Primitive Float) :
    Xml.Reads ⟨frame :: frames, .content ['\n']⟩ (element p).toList
      ⟨{ frame with content := frame.content ++ line p } :: frames, .content ['\n']⟩ := by
  have hName := (key_tag p).1
  have hPairs := (plain_attributes p).legible
  cases hLabel : p.label? with
  | none =>
    have hLine : line p = [.text "\n  ", .element (tag p) (attributes p) []] := by
      simp [line, node?, hLabel]
    rw [hLine, toList_element hLabel]
    exact reads_line (Xml.reads_empty hName hPairs)
  | some written =>
    rw [toList_element_label hLabel]
    by_cases hEmpty : written.isEmpty
    · have hLine : line p = [] := by
        simp [line, node?, hLabel, hEmpty]
      rw [hLine, List.append_nil, if_pos hEmpty]
      exact .nil _
    · have hLine : line p =
          [.text "\n  ", .element (tag p) (attributes p) [.text written]] := by
        simp [line, node?, hLabel, hEmpty]
      rw [hLine, if_neg hEmpty]
      let outside : Xml.Frame := { frame with content := frame.content ++ [.text "\n  "] }
      let inside : Xml.Frame := ⟨tag p, attributes p, []⟩
      have hContent : Xml.Reads ⟨inside :: outside :: frames, .content []⟩ (content written).toList
          ⟨inside :: outside :: frames, .content written.toList⟩ := reads_content written
      have hClose : Xml.Reads ⟨inside :: outside :: frames, .content written.toList⟩
          ('<' :: '/' :: ((tag p).toList ++ ['>']))
          ⟨Xml.put [.element (tag p) (attributes p) [.text written]] (outside :: frames),
            .content []⟩ := by
        have hText : Xml.textNodes written.toList = [.text written] := by
          simpa [Xml.textNodes] using hEmpty
        rw [← hText]
        exact Xml.reads_close hName
      exact reads_line ((Xml.reads_open hName hPairs).append (hContent.append hClose))

theorem reads_items (items : List (Primitive Float)) :
    Xml.Reads ⟨frame :: frames, .content ['\n']⟩ (String.join (items.map element)).toList
      ⟨{ frame with content := frame.content ++ items.flatMap line } :: frames,
        .content ['\n']⟩ := by
  rw [String.toList_join, List.flatMap_map]
  induction items generalizing frame with
  | nil =>
    simp only [List.flatMap_nil, List.append_nil]
    exact .nil _
  | cons p items ih =>
    have hRest : Xml.Reads
        ⟨{ frame with content := frame.content ++ line p } :: frames, .content ['\n']⟩
        (items.flatMap fun p => (element p).toList)
        ⟨{ frame with content := frame.content ++ line p ++ items.flatMap line } :: frames,
          .content ['\n']⟩ := ih
    simp only [List.append_assoc] at hRest
    exact (reads_element p).append hRest

end

theorem read_document (scene : Scene Float) :
    Xml.read (document scene).toList = some (root scene) := by
  have hOpen : Xml.Reads .start
      ('<' :: ("svg".toList ++ (Xml.attributes (surface scene.size) ++ ['>'])))
      ⟨[⟨"svg", surface scene.size, []⟩, ⟨"", [], []⟩], .content []⟩ :=
    Xml.reads_open key_svg.1 (plain_surface scene.size).legible
  have hItems : Xml.Reads ⟨[⟨"svg", surface scene.size, []⟩, ⟨"", [], []⟩], .content ['\n']⟩
      (String.join (scene.items.map element)).toList
      ⟨[⟨"svg", surface scene.size, scene.items.flatMap line⟩, ⟨"", [], []⟩], .content ['\n']⟩ :=
    reads_items scene.items
  have hClose : Xml.Reads
      ⟨[⟨"svg", surface scene.size, scene.items.flatMap line⟩, ⟨"", [], []⟩], .content ['\n']⟩
      ('<' :: '/' :: ("svg".toList ++ ['>']))
      ⟨[⟨"", [], [root scene]⟩], .content []⟩ :=
    Xml.reads_close key_svg.1
  have hAll : Xml.Reads .start (document scene).toList
      ⟨[⟨"", [], [root scene]⟩], .content ['\n']⟩ := by
    have hSteps := hOpen.append (.cons (c := '\n') rfl
      (hItems.append (hClose.append (.cons (c := '\n') rfl (.nil _)))))
    simpa [document, toList_fields, surface] using hSteps
  rw [Xml.read, hAll]
  rfl

/-! ## Labels -/

theorem textsAll_line (p : Primitive Float) :
    Xml.textsAll "text" (line p) = (p.label?.toList).filter (!·.isEmpty) := by
  cases p with
  | label written =>
    by_cases hEmpty : written.isEmpty
    · simp [line, node?, Primitive.label?, hEmpty, Xml.textsAll]
    · simp [line, node?, Primitive.label?, hEmpty, Xml.textsAll, Xml.Node.texts, tag,
        Xml.Node.text?]
  | _ => simp [line, node?, Primitive.label?, Xml.textsAll, Xml.Node.texts, tag]

theorem texts_root (scene : Scene Float) :
    (root scene).texts "text" = scene.labels.filter (!·.isEmpty) := by
  have hItems (items : List (Primitive Float)) : Xml.textsAll "text" (items.flatMap line) =
      (items.flatMap (·.label?.toList)).filter (!·.isEmpty) := by
    induction items with
    | nil => rfl
    | cons p items ih =>
      rw [List.flatMap_cons, Xml.textsAll_append, textsAll_line, ih, List.flatMap_cons,
        List.filter_append]
  simp [root, Xml.Node.texts, Xml.textsAll_append, hItems, Xml.textsAll, Scene.labels]

/-! ## Characters -/

theorem strange_escape (c : Char) : strange (escape c).toList = strange [c] := by
  obtain ⟨hSelf, -⟩ | rfl | rfl | rfl | rfl := escape_cases c
  · rw [hSelf]
  all_goals rfl

theorem strange_content (text : String) : strange (content text).toList = strange text.toList := by
  rw [content, String.toList_join, List.flatMap_map, strange_flatMap]
  simp only [strange_escape]
  rw [← strange_flatMap, List.flatMap_singleton']

theorem strange_element (p : Primitive Float) :
    strange (element p).toList = p.label?.toList.flatMap (strange ·.toList) := by
  have hTag := (key_tag p).2.strange
  have hPairs := (plain_attributes p).strange
  cases hLabel : p.label? with
  | none =>
    rw [toList_element hLabel]
    simp (disch := decide) only [List.cons_append, strange_cons, strange_append, hTag, hPairs,
      strange_nil, List.append_nil]
    rfl
  | some written =>
    rw [toList_element_label hLabel]
    split_ifs with hEmpty
    · rw [String.isEmpty_iff.mp hEmpty]
      rfl
    · simp (disch := decide) only [List.cons_append, strange_cons, strange_append, hTag, hPairs,
        strange_nil, strange_content, List.nil_append, List.append_nil]
      simp

theorem strange_document (scene : Scene Float) :
    strange (document scene).toList = scene.labels.flatMap (strange ·.toList) := by
  have hItems : strange (String.join (scene.items.map element)).toList =
      scene.labels.flatMap (strange ·.toList) := by
    rw [String.toList_join, List.flatMap_map, strange_flatMap, Scene.labels, List.flatMap_assoc]
    simp only [strange_element]
  have hPairs := (plain_surface scene.size).strange
  have hTag : strange "<svg".toList = [] := rfl
  have hOpen : strange ">\n".toList = [] := rfl
  have hClose : strange "</svg>\n".toList = [] := rfl
  rw [surface] at hPairs
  simp only [document, String.toList_append, strange_append, toList_fields, hPairs, hItems, hTag,
    hOpen, hClose, List.nil_append, List.append_nil]

end Svg

/-! ## Trees -/

section

variable {K : Type} [Scalar K]

theorem Primitive.labels_box (rect : Rect K) (radius : K) (fill : Color) (opacity : K) :
    (Primitive.box rect radius fill opacity).flatMap (·.label?.toList) = [] := by
  unfold Primitive.box
  split <;> rfl

namespace Block

variable (metrics : Metrics K)

mutual

/-- Blocks are labelled in the order of their numbers. -/
theorem labels_draw (parentOrigin : Point K) (start : Nat) (parent : Option Nat)
    (above : List (Offset K)) : (b : Block K) →
      (b.draw metrics parentOrigin).flatMap (·.label?.toList) =
        (b.entries start parent above).map (·.block.label)
  | .leaf f s => by
    have hRing (place : Offset K) : (drawRing f s place).flatMap (·.label?.toList) = [] := by
      unfold drawRing
      split
      · exact Primitive.labels_box ..
      · rfl
    simp only [draw, drawBox, List.flatMap_append, hRing, Primitive.labels_box, List.nil_append]
    rfl
  | .branch f s cs => by
    simp only [draw, drawBox, entries, List.flatMap_append, List.map_append, Primitive.labels_box,
      List.nil_append, labels_drawAll (parentOrigin + f.offset) start (start + countAll cs)
        (f.offset :: above) cs]
    rfl

theorem labels_drawAll (parentOrigin : Point K) (start parent : Nat)
    (above : List (Offset K)) : (bs : List (Block K)) →
      (drawAll metrics parentOrigin bs).flatMap (·.label?.toList) =
        (entriesAll start parent above bs).map (·.block.label)
  | [] => rfl
  | b :: bs => by
    rw [drawAll, entriesAll, List.flatMap_append, List.map_append,
      labels_draw parentOrigin start (some parent) above b,
      labels_drawAll parentOrigin (start + b.count) parent above bs]

end

end Block

end

namespace Svg

theorem labels_ofTree (metrics : Metrics Float) (margin : Float) (t : BlockTree Float) :
    (Scene.ofTree metrics margin t).labels = t.entries.map (·.block.label) :=
  t.root.labels_draw metrics _ 0 none []

/-- The document of a tree is one element, every tag in it closed and every reference known. The
elements are those of the primitives, and their texts are the labels of the blocks that have one.
What no document may hold comes from the labels alone. -/
theorem document_of_tree (metrics : Metrics Float) (margin : Float) (t : BlockTree Float) :
    let scene := Scene.ofTree metrics margin t
    let labels := t.entries.map (·.block.label)
    Xml.read (document scene).toList = some (root scene) ∧
      Xml.Marked (document scene).toList ∧
      scene.labels = labels ∧
      (root scene).texts "text" = labels.filter (!·.isEmpty) ∧
      strange (document scene).toList = labels.flatMap (strange ·.toList) := by
  intro scene labels
  have hLabels : scene.labels = labels := labels_ofTree metrics margin t
  have hRead := read_document scene
  have hTexts := texts_root scene
  have hStrange := strange_document scene
  rw [hLabels] at hTexts hStrange
  exact ⟨hRead, Xml.marked_of_read hRead, hLabels, hTexts, hStrange⟩

/-- A control character of a text stays in the document. -/
theorem document_of_control :
    let settings : Settings Float := .standard
    ∃ style tree, settings.style (.ofReadable fun _ => true) = .ok style ∧
      style.layOutText "\"\x01\"" = .ok tree ∧
      ¬ ∀ c ∈ (document (Scene.ofTree settings.metrics 12.0 tree)).toList,
        isCharacter c = true := by
  intro settings
  have hStyle : settings.style (.ofReadable fun _ => true) =
      .ok ⟨settings.metrics, .fixedAdvance ((3 : Nat) / (5 : Nat))⟩ := rfl
  have hRead : Node.read "\"\x01\"" = .ok (.literal (.text "\x01")) := by
    cbv
  obtain ⟨tree, hTree, hLabels⟩ : ∃ tree : BlockTree Float,
      (⟨settings.metrics, .fixedAdvance ((3 : Nat) / (5 : Nat))⟩ : Style Float).layOutText
          "\"\x01\"" = .ok tree ∧
        tree.entries.map (·.block.label) = ["\x01"] := by
    rw [Style.layOutText, hRead]
    exact ⟨_, rfl, rfl⟩
  refine ⟨_, tree, hStyle, hTree, fun hAll => ?_⟩
  have hStrange := strange_document (Scene.ofTree settings.metrics 12.0 tree)
  rw [labels_ofTree, hLabels] at hStrange
  have hNone : strange (document (Scene.ofTree settings.metrics 12.0 tree)).toList = [] :=
    List.filter_eq_nil_iff.mpr fun c hc => by simp [hAll c hc]
  rw [hNone] at hStrange
  cases hStrange

end Svg

end Blockwork
