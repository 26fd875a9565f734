import Mathlib.Data.List.Basic

/-! # Reading markup

A reader for the part of XML that drawings use: elements, attributes, text, and references to the
five characters that have a name. Every tag has to be closed in its turn, a tag has no attribute
twice, and one element holds all others. So each `<` that is read opens a tag and each `&` a
reference. Line ends are read as they stand, and which characters a document may hold at all is not
asked.
-/

set_option autoImplicit false

namespace Blockwork.Xml

inductive Node where
  | element (name : String) (attributes : List (String × String)) (content : List Node)
  | text (text : String)

structure Frame where
  name : String
  attributes : List (String × String)
  content : List Node

inductive Mode where
  | content (text : List Char)
  | reference (text name : List Char)
  | bracket
  | closing (name : List Char)
  | opening (name : List Char)
  | tag (frame : Frame)
  | key (frame : Frame) (key : List Char)
  | equals (frame : Frame) (key : List Char)
  | value (frame : Frame) (key value : List Char)
  | slash (frame : Frame)

/-- A reader on its way. The open elements stand from the innermost to the document. -/
structure Reader where
  frames : List Frame
  mode : Mode

def isBlank (c : Char) : Bool := c = ' ' || c = '\t' || c = '\n' || c = '\r'

def isPlain (c : Char) : Bool := c != '<' && c != '&' && c != '>'

def isQuiet (c : Char) : Bool := 0x20 ≤ c.toNat && c != '<' && c != '&' && c != '"'

def isSign (c : Char) : Bool := !(c.isAlpha || c.isDigit || c = '-')

def extended? (name : List Char) (c : Char) : Option (List Char) :=
  if c.isAlpha || (!name.isEmpty && (c.isDigit || c = '-')) then some (name ++ [c]) else none

def named? : String → Option Char
  | "amp" => some '&'
  | "lt" => some '<'
  | "gt" => some '>'
  | "quot" => some '"'
  | "apos" => some '\''
  | _ => none

def Frame.node (f : Frame) : Node := .element f.name f.attributes f.content

def textNodes (text : List Char) : List Node :=
  if text.isEmpty then [] else [.text (String.ofList text)]

def put (nodes : List Node) : List Frame → List Frame
  | [] => []
  | top :: rest => { top with content := top.content ++ nodes } :: rest

namespace Reader

def inTag (frames : List Frame) (frame : Frame) (c : Char) : Option Reader :=
  if c = ' ' then some ⟨frames, .key frame []⟩
  else if c = '/' then some ⟨frames, .slash frame⟩
  else if c = '>' then some ⟨frame :: frames, .content []⟩
  else none

def close (frames : List Frame) (name : String) : Option Reader :=
  match frames with
  | top :: above :: rest =>
    if top.name = name then some ⟨put [top.node] (above :: rest), .content []⟩ else none
  | _ => none

def step (r : Reader) (c : Char) : Option Reader :=
  match r.mode with
  | .content text =>
    if c = '<' then some ⟨put (textNodes text) r.frames, .bracket⟩
    else if c = '&' then some ⟨r.frames, .reference text []⟩
    else if c = '>' then none
    else some ⟨r.frames, .content (text ++ [c])⟩
  | .reference text name =>
    match extended? name c with
    | some name => some ⟨r.frames, .reference text name⟩
    | none =>
      if c = ';' then
        (named? (String.ofList name)).map fun d => ⟨r.frames, .content (text ++ [d])⟩
      else none
  | .bracket =>
    if c = '/' then some ⟨r.frames, .closing []⟩
    else (extended? [] c).map fun name => ⟨r.frames, .opening name⟩
  | .closing name =>
    match extended? name c with
    | some name => some ⟨r.frames, .closing name⟩
    | none => if c = '>' then close r.frames (String.ofList name) else none
  | .opening name =>
    match extended? name c with
    | some name => some ⟨r.frames, .opening name⟩
    | none => inTag r.frames ⟨String.ofList name, [], []⟩ c
  | .tag frame => inTag r.frames frame c
  | .key frame key =>
    match extended? key c with
    | some key => some ⟨r.frames, .key frame key⟩
    | none => if c = '=' && !key.isEmpty then some ⟨r.frames, .equals frame key⟩ else none
  | .equals frame key => if c = '"' then some ⟨r.frames, .value frame key []⟩ else none
  | .value frame key value =>
    if c = '"' then
      if frame.attributes.any (·.1 = String.ofList key) then none
      else
        some ⟨r.frames, .tag { frame with
          attributes := frame.attributes ++ [(String.ofList key, String.ofList value)] }⟩
    else if isQuiet c then some ⟨r.frames, .value frame key (value ++ [c])⟩
    else none
  | .slash frame => if c = '>' then some ⟨put [frame.node] r.frames, .content []⟩ else none

def start : Reader := ⟨[⟨"", [], []⟩], .content []⟩

/-- The element that has been read, if it is the only one and nothing but blanks is around it. -/
def root? : Reader → Option Node
  | ⟨[document], .content text⟩ =>
    let isSpace : Node → Bool
      | .text s => s.toList.all isBlank
      | .element .. => false
    match document.content.filter (!isSpace ·) with
    | [.element name attributes content] =>
      if text.all isBlank then some (.element name attributes content) else none
    | _ => none
  | _ => none

end Reader

def read (document : List Char) : Option Node :=
  (document.foldlM Reader.step .start).bind Reader.root?

example : read "<a b=\"1\">x&lt;<c d=\"2\"/></a>\n".toList =
    some (.element "a" [("b", "1")] [.text "x<", .element "c" [("d", "2")] []]) :=
  rfl

def Node.text? : Node → Option String
  | .text s => some s
  | .element .. => none

mutual

def Node.texts (name : String) : Node → List String
  | .element own _ content =>
    let inner := textsAll name content
    if own = name then String.join (content.filterMap Node.text?) :: inner else inner
  | .text _ => []

def textsAll (name : String) : List Node → List String
  | [] => []
  | node :: rest => node.texts name ++ textsAll name rest

end

theorem textsAll_append (name : String) (nodes more : List Node) :
    textsAll name (nodes ++ more) = textsAll name nodes ++ textsAll name more := by
  induction nodes with
  | nil => rfl
  | cons node nodes ih => rw [List.cons_append, textsAll, textsAll, ih, List.append_assoc]

/-- Characters that take a reader from one state to another. -/
def Reads (r : Reader) (cs : List Char) (s : Reader) : Prop :=
  cs.foldlM Reader.step r = some s

/-- Each `<` of a document opens a tag, and each `&` a reference. -/
def Marked (document : List Char) : Prop :=
  ∀ before c rest, document = before ++ c :: rest →
    ∃ r s, Reads .start before r ∧ r.step c = some s ∧
      (c = '<' → s.mode = .bracket) ∧ (c = '&' → ∃ text, s.mode = .reference text [])

def IsName (name : String) : Prop :=
  name.toList ≠ [] ∧ name.toList.foldlM extended? [] = some name.toList

def attributeText (pair : String × String) : List Char :=
  ' ' :: (pair.1.toList ++ '=' :: '"' :: (pair.2.toList ++ ['"']))

def attributes (pairs : List (String × String)) : List Char :=
  pairs.flatMap attributeText

structure Legible (pairs : List (String × String)) : Prop where
  names : ∀ pair ∈ pairs, IsName pair.1
  values : ∀ pair ∈ pairs, ∀ c ∈ pair.2.toList, isQuiet c = true
  once : (pairs.map (·.1)).Nodup

section

variable {r s t : Reader} {cs ds : List Char} {c : Char} {name name' : List Char}
  {frames : List Frame} {frame : Frame} {text : List Char}

theorem Reads.nil (r : Reader) : Reads r [] r :=
  rfl

theorem Reads.cons (h : r.step c = some s) (hRest : Reads s cs t) : Reads r (c :: cs) t := by
  rw [Reads, List.foldlM_cons, h]
  exact hRest

theorem Reads.append (h : Reads r cs s) (hRest : Reads s ds t) : Reads r (cs ++ ds) t := by
  rw [Reads, List.foldlM_append, h]
  exact hRest

theorem extended?_of_sign (name : List Char) (h : isSign c = true) : extended? name c = none := by
  simp only [isSign, Bool.not_eq_true', Bool.or_eq_false_iff] at h
  simp [extended?, h]

theorem mode_of_less (h : r.step '<' = some s) : s.mode = .bracket := by
  obtain ⟨frames, mode⟩ := r
  have hSign (name : List Char) : extended? name '<' = none := extended?_of_sign name rfl
  cases mode with
  | content text =>
    obtain rfl := Option.some.inj h
    rfl
  | _ => simp [Reader.step, Reader.inTag, hSign, isQuiet] at h

theorem mode_of_ampersand (h : r.step '&' = some s) : ∃ text, s.mode = .reference text [] := by
  obtain ⟨frames, mode⟩ := r
  have hSign (name : List Char) : extended? name '&' = none := extended?_of_sign name rfl
  cases mode with
  | content text =>
    obtain rfl := Option.some.inj h
    exact ⟨text, rfl⟩
  | _ => simp [Reader.step, Reader.inTag, hSign, isQuiet] at h

/-- Every `<` and every `&` of what can be read is markup. -/
theorem marked_of_read {document : List Char} {node : Node} (h : read document = some node) :
    Marked document := by
  intro before c rest hDocument
  obtain ⟨last, hLast, -⟩ := Option.bind_eq_some_iff.mp h
  rw [hDocument, List.foldlM_append] at hLast
  obtain ⟨r, hBefore, hLast⟩ := Option.bind_eq_some_iff.mp hLast
  rw [List.foldlM_cons] at hLast
  obtain ⟨s, hStep, -⟩ := Option.bind_eq_some_iff.mp hLast
  refine ⟨r, s, hBefore, hStep, ?_, ?_⟩
  · rintro rfl
    exact mode_of_less hStep
  · rintro rfl
    exact mode_of_ampersand hStep

theorem reads_name (mode : List Char → Mode)
    (hStep : ∀ name c name', extended? name c = some name' →
      Reader.step ⟨frames, mode name⟩ c = some ⟨frames, mode name'⟩)
    (h : cs.foldlM extended? name = some name') :
    Reads ⟨frames, mode name⟩ cs ⟨frames, mode name'⟩ := by
  induction cs generalizing name with
  | nil =>
    obtain rfl := Option.some.inj h
    exact .nil _
  | cons c cs ih =>
    rw [List.foldlM_cons] at h
    obtain ⟨longer, hLonger, h⟩ := Option.bind_eq_some_iff.mp h
    exact .cons (hStep name c longer hLonger) (ih h)

theorem reads_plain (h : ∀ c ∈ cs, isPlain c = true) :
    Reads ⟨frames, .content text⟩ cs ⟨frames, .content (text ++ cs)⟩ := by
  induction cs generalizing text with
  | nil =>
    rw [List.append_nil]
    exact .nil _
  | cons c cs ih =>
    obtain ⟨hc, hcs⟩ := List.forall_mem_cons.mp h
    have hStep : Reader.step ⟨frames, .content text⟩ c =
        some ⟨frames, .content (text ++ [c])⟩ := by
      simp only [isPlain, Bool.and_eq_true, bne_iff_ne] at hc
      simp [Reader.step, hc]
    have hRest : Reads ⟨frames, .content (text ++ [c])⟩ cs
        ⟨frames, .content (text ++ [c] ++ cs)⟩ := ih hcs
    rw [List.append_assoc] at hRest
    exact .cons hStep hRest

theorem reads_quiet {key value : List Char} (h : ∀ c ∈ cs, isQuiet c = true) :
    Reads ⟨frames, .value frame key value⟩ cs ⟨frames, .value frame key (value ++ cs)⟩ := by
  induction cs generalizing value with
  | nil =>
    rw [List.append_nil]
    exact .nil _
  | cons c cs ih =>
    obtain ⟨hc, hcs⟩ := List.forall_mem_cons.mp h
    have hNoQuote : c ≠ '"' := by
      simp only [isQuiet, Bool.and_eq_true, bne_iff_ne] at hc
      exact hc.2
    have hStep : Reader.step ⟨frames, .value frame key value⟩ c =
        some ⟨frames, .value frame key (value ++ [c])⟩ := by
      simp [Reader.step, hNoQuote, hc]
    have hRest : Reads ⟨frames, .value frame key (value ++ [c])⟩ cs
        ⟨frames, .value frame key (value ++ [c] ++ cs)⟩ := ih hcs
    rw [List.append_assoc] at hRest
    exact .cons hStep hRest

theorem reads_attribute {pair : String × String} (hName : IsName pair.1)
    (hValue : ∀ c ∈ pair.2.toList, isQuiet c = true)
    (hNew : ∀ other ∈ frame.attributes, other.1 ≠ pair.1) :
    Reads ⟨frames, .tag frame⟩ (attributeText pair)
      ⟨frames, .tag { frame with attributes := frame.attributes ++ [pair] }⟩ := by
  obtain ⟨key, value⟩ := pair
  obtain ⟨hSome, hName⟩ := hName
  have hKey : Reads ⟨frames, .key frame []⟩ key.toList ⟨frames, .key frame key.toList⟩ :=
    reads_name (.key frame) (fun name c name' h => by simp [Reader.step, h]) hName
  have hEquals : Reader.step ⟨frames, .key frame key.toList⟩ '=' =
      some ⟨frames, .equals frame key.toList⟩ := by
    simp [Reader.step, extended?_of_sign (c := '=') key.toList rfl, hSome]
  have hRead : Reads ⟨frames, .value frame key.toList []⟩ value.toList
      ⟨frames, .value frame key.toList value.toList⟩ := reads_quiet hValue
  have hEnd : Reader.step ⟨frames, .value frame key.toList value.toList⟩ '"' =
      some ⟨frames, .tag { frame with attributes := frame.attributes ++ [(key, value)] }⟩ := by
    have hOther : frame.attributes.any (·.1 = key) = false := by
      simpa [List.any_eq_false] using hNew
    simp [Reader.step, String.ofList_toList, hOther]
  exact .cons rfl (hKey.append (.cons hEquals (.cons rfl (hRead.append (.cons hEnd (.nil _))))))

theorem reads_attributes {pairs : List (String × String)}
    (h : Legible (frame.attributes ++ pairs)) :
    Reads ⟨frames, .tag frame⟩ (attributes pairs)
      ⟨frames, .tag { frame with attributes := frame.attributes ++ pairs }⟩ := by
  induction pairs generalizing frame with
  | nil =>
    rw [List.append_nil]
    exact .nil _
  | cons pair pairs ih =>
    have hMem : pair ∈ frame.attributes ++ pair :: pairs := by simp
    have hNew : ∀ other ∈ frame.attributes, other.1 ≠ pair.1 := by
      have hOnce := h.once
      rw [List.map_append, List.map_cons, List.nodup_append] at hOnce
      exact fun other hOther => hOnce.2.2 _ (List.mem_map_of_mem hOther) _ List.mem_cons_self
    have hFirst : Reads ⟨frames, .tag frame⟩ (attributeText pair)
        ⟨frames, .tag { frame with attributes := frame.attributes ++ [pair] }⟩ :=
      reads_attribute (h.names _ hMem) (h.values _ hMem) hNew
    have hRest : Reads
        ⟨frames, .tag { frame with attributes := frame.attributes ++ [pair] }⟩ (attributes pairs)
        ⟨frames, .tag { frame with attributes := frame.attributes ++ [pair] ++ pairs }⟩ :=
      ih (by rwa [List.append_assoc])
    rw [List.append_assoc] at hRest
    exact hFirst.append hRest

theorem reads_opening {name : String} (h : IsName name) :
    Reads ⟨frames, .content text⟩ ('<' :: name.toList)
      ⟨put (textNodes text) frames, .opening name.toList⟩ := by
  obtain ⟨hSome, hName⟩ := h
  refine .cons (s := ⟨put (textNodes text) frames, .bracket⟩) rfl ?_
  generalize name.toList = cs at hSome hName
  cases cs with
  | nil => exact absurd rfl hSome
  | cons c cs =>
    rw [List.foldlM_cons] at hName
    obtain ⟨first, hFirst, hName⟩ := Option.bind_eq_some_iff.mp hName
    have hSlash : c ≠ '/' := by
      rintro rfl
      cases hFirst
    have hStep : Reader.step ⟨put (textNodes text) frames, .bracket⟩ c =
        some ⟨put (textNodes text) frames, .opening first⟩ := by
      simp [Reader.step, hSlash, hFirst]
    exact .cons hStep
      (reads_name .opening (fun name c name' h => by simp [Reader.step, h]) hName)

/-- Behind the name of a tag a sign is read as behind an attribute. -/
theorem Reads.of_tag {name : String} (hc : isSign c = true)
    (h : Reads ⟨frames, .tag ⟨name, [], []⟩⟩ (c :: cs) s) :
    Reads ⟨frames, .opening name.toList⟩ (c :: cs) s := by
  have hStep : Reader.step ⟨frames, .opening name.toList⟩ c =
      Reader.step ⟨frames, .tag ⟨name, [], []⟩⟩ c := by
    simp [Reader.step, extended?_of_sign _ hc, String.ofList_toList]
  rw [Reads, List.foldlM_cons, hStep]
  exact h

theorem reads_tag {name : String} {pairs : List (String × String)} (hName : IsName name)
    (h : Legible pairs) (hc : isSign c = true)
    (hEnd : Reader.inTag (put (textNodes text) frames) ⟨name, pairs, []⟩ c = some s) :
    Reads ⟨frames, .content text⟩ ('<' :: (name.toList ++ (attributes pairs ++ [c]))) s := by
  have hPairs : Reads ⟨put (textNodes text) frames, .tag ⟨name, [], []⟩⟩ (attributes pairs)
      ⟨put (textNodes text) frames, .tag ⟨name, pairs, []⟩⟩ := reads_attributes h
  have hTag : Reads ⟨put (textNodes text) frames, .tag ⟨name, [], []⟩⟩
      (attributes pairs ++ [c]) s :=
    hPairs.append (.cons hEnd (.nil _))
  refine (reads_opening hName).append ?_
  cases pairs with
  | nil => exact .of_tag hc hTag
  | cons pair pairs => exact .of_tag rfl hTag

variable {name : String} {pairs : List (String × String)} {content : List Node}

theorem reads_empty (hName : IsName name) (h : Legible pairs) :
    Reads ⟨frames, .content text⟩ ('<' :: (name.toList ++ (attributes pairs ++ ['/', '>'])))
      ⟨put [.element name pairs []] (put (textNodes text) frames), .content []⟩ := by
  have hTag : Reads ⟨frames, .content text⟩ ('<' :: (name.toList ++ (attributes pairs ++ ['/'])))
      ⟨put (textNodes text) frames, .slash ⟨name, pairs, []⟩⟩ := reads_tag hName h rfl rfl
  have hEnd : Reads ⟨put (textNodes text) frames, .slash ⟨name, pairs, []⟩⟩ ['>']
      ⟨put [.element name pairs []] (put (textNodes text) frames), .content []⟩ := rfl
  have hRead := hTag.append hEnd
  simpa only [List.cons_append, List.append_assoc, List.nil_append] using hRead

theorem reads_open (hName : IsName name) (h : Legible pairs) :
    Reads ⟨frames, .content text⟩ ('<' :: (name.toList ++ (attributes pairs ++ ['>'])))
      ⟨⟨name, pairs, []⟩ :: put (textNodes text) frames, .content []⟩ :=
  reads_tag hName h rfl rfl

theorem reads_close {above : Frame} (hName : IsName name) :
    Reads ⟨⟨name, pairs, content⟩ :: above :: frames, .content text⟩
      ('<' :: '/' :: (name.toList ++ ['>']))
      ⟨put [.element name pairs (content ++ textNodes text)] (above :: frames), .content []⟩ := by
  obtain ⟨-, hName⟩ := hName
  let inside := put (textNodes text) (⟨name, pairs, content⟩ :: above :: frames)
  have hRead : Reads ⟨inside, .closing []⟩ name.toList ⟨inside, .closing name.toList⟩ :=
    reads_name .closing (fun name c name' h => by simp [Reader.step, h]) hName
  have hEnd : Reader.step ⟨inside, .closing name.toList⟩ '>' = some
      ⟨put [.element name pairs (content ++ textNodes text)] (above :: frames), .content []⟩ := by
    simp [Reader.step, extended?_of_sign (c := '>') name.toList rfl, String.ofList_toList,
      Reader.close, inside, put, Frame.node]
  exact .cons rfl (.cons rfl (hRead.append (.cons hEnd (.nil _))))

end

end Blockwork.Xml
