import CodeAtlas.Proofs.Graph.Calls
import CodeAtlas.Proofs.Graph.WellFormed
import CodeAtlas.Proofs.Source.Lines
import CodeAtlas.Proofs.Text.Word

/-!
The places of calls in a source file. The line of a place is that of the file; the column is counted
from the start of that line or, on the line a member starts on, from the start of the member.
-/

namespace CodeAtlas

namespace Source

open Text

/-- The line of a number, counted from one, when bytes are split at the line feeds. -/
def line? (bytes : List UInt8) : Nat → Option (List UInt8)
  | 0 => none
  | n + 1 => (bytes.splitOn 10)[n]?

section Bytes

variable {bytes above rest : List UInt8} {first last : Nat} {s : CallSite}

theorem take_slice (bytes : List UInt8) (first last : Nat) :
    ∃ behind, bytes = bytes.take first ++ slice bytes first last ++ behind := by
  refine ⟨(bytes.drop first).drop (last - first), ?_⟩
  rw [slice, List.append_assoc, List.take_append_drop, List.take_append_drop]

/-- What has something behind it in a span ends on the last line of the span or before. -/
theorem lineOf_add_le (h : slice bytes first last = above ++ rest) (hne : rest ≠ []) :
    lineOf bytes first + above.count 10 ≤ lastLineOf bytes first last := by
  obtain ⟨behind, hbytes⟩ := take_slice bytes first last
  have hlen : above.length + 1 ≤ last - first := by
    have hslice : (slice bytes first last).length ≤ last - first := List.length_take_le _ _
    have hrest := List.length_pos_iff.mpr hne
    rw [h, List.length_append] at hslice
    omega
  have hprefix : bytes.take first ++ above <+: bytes.take (max first (last - 1)) := by
    apply List.prefix_take_iff.mpr
    constructor
    · rw [h] at hbytes
      exact ⟨rest ++ behind, by rw [← List.append_assoc, List.append_assoc _ above, ← hbytes]⟩
    · rw [List.length_append, List.length_take]
      omega
  have hcount := hprefix.sublist.count_le 10
  rw [List.count_append] at hcount
  unfold lastLineOf
  rw [lineOf_eq, lineOf_eq]
  omega

/-- The bytes of the line from the place on that the columns of a call in a span are counted
from. -/
def indent (bytes : List UInt8) (first lineOffset : Nat) : List UInt8 :=
  if lineOffset = 0 then lastLine 10 (bytes.take first) else []

/-- The name of a call in a span stands on the line of the file that the call says. -/
theorem exists_line (h : s ∈ callSites (textOf bytes first last)) :
    ∃ before after, line? bytes (lineOf bytes first + s.lineOffset) =
        some (indent bytes first s.lineOffset ++
        (before ++ Utf8.asciiBytes s.name.toList ++ after)) ∧
      (Utf8.decodeFrom .start before).length + 1 = s.column ∧ s.name.toList ≠ [] ∧
      (∀ c ∈ s.name.toList, Utf8.Plain c) ∧
      lineOf bytes first + s.lineOffset ≤ lastLineOf bytes first last := by
  obtain ⟨above, before, after, hat⟩ := exists_at h
  obtain ⟨behind, hbytes⟩ := take_slice bytes first last
  obtain ⟨lines, hlines, hends, hcount⟩ := hat.ends.exists_lines (bytes.take first)
  rw [hat.line] at hlines hcount
  have hwhole : bytes = lines ++ (indent bytes first s.lineOffset ++
      (before ++ Utf8.asciiBytes s.name.toList) ++ (after ++ behind)) :=
    calc bytes
      _ = (bytes.take first ++ above) ++ (before ++ Utf8.asciiBytes s.name.toList ++
          (after ++ behind)) := by
        conv_lhs => rw [hbytes, hat.bytes_eq]
        simp
      _ = _ := by rw [hlines, indent, List.append_assoc, List.append_assoc (if s.lineOffset =
        0 then _ else _)]
  have hnone : ∀ b ∈ indent bytes first s.lineOffset ++ (before ++ Utf8.asciiBytes s.name.toList),
      (b != 10) = true := by
    intro b hb
    rw [bne_iff_ne]
    rintro rfl
    rcases List.mem_append.mp hb with hb | hb
    · unfold indent at hb
      split at hb
      · exact not_mem_lastLine _ _ hb
      · exact List.not_mem_nil hb
    · rcases List.mem_append.mp hb with hb | hb
      · exact hat.onLine hb
      · exact newline_not_mem_asciiBytes hat.chars hb
  have hline := getElem?_splitOn hends (indent bytes first s.lineOffset ++
      (before ++ Utf8.asciiBytes s.name.toList) ++ (after ++ behind))
  rw [← hwhole, List.takeWhile_append_of_pos hnone] at hline
  have hnumber : lineOf bytes first + s.lineOffset = lines.count 10 + 1 := by
    rw [lineOf_eq]
    omega
  refine ⟨before, (after ++ behind).takeWhile (· != 10), ?_, hat.column, hat.name_ne,
    fun c hc => (plain_of_isWordChar (hat.chars c hc)).1, ?_⟩
  · rw [hnumber, line?, hline, List.append_assoc]
  · have hrest : before ++ Utf8.asciiBytes s.name.toList ++ after ≠ [] := by
      simp [Utf8.asciiBytes, hat.name_ne]
    have hslice : slice bytes first last =
        above ++ (before ++ Utf8.asciiBytes s.name.toList ++ after) := by
      rw [hat.bytes_eq]
      simp
    rw [← hat.line]
    exact lineOf_add_le hslice hrest

end Bytes

section Chunks

variable {f : File} {l : Language} {c : Chunk}

/-- A symbol of a file has its id, its content and its lines from one span. -/
theorem exists_span_of_isSymbol (h : f.root.Spanned l) (hc : c ∈ f.chunks l)
    (hs : c.kind.isSymbol = true) :
    ∃ first last, c.id = Chunk.idOf f.path c.kind first last ∧
      c.content = textOf f.bytes first last ∧
      c.startLine = lineOf f.bytes first ∧ c.endLine = lastLineOf f.bytes first last := by
  have htree : ∃ file package, f.tree l = file :: f.below l package ∧ file.core.kind = .file :=
    ⟨_, _, rfl, rfl⟩
  obtain ⟨first, package, htree, hkind⟩ := htree
  obtain ⟨file, rest, hlink, hcore, hrest⟩ := Chunk.link_core? first (f.below l package)
  rw [File.chunks, htree, hlink] at hc
  cases List.mem_cons.mp hc with
  | inl hc =>
    have hfile : c.kind = .file := hc ▸ (congrArg Chunk.kind hcore).trans hkind
    rw [hfile] at hs
    exact absurd hs (by decide)
  | inr hc =>
    have hsegment := (Chunk.core?_eq_some.mp (File.core?_of_isSymbol hs)).1
    obtain ⟨x, -, hx⟩ := File.exists_coreOf h hrest hc hsegment
    refine ⟨x.1.first, x.1.last, ?_, congrArg Chunk.content hx, congrArg Chunk.startLine hx,
      congrArg Chunk.endLine hx⟩
    rw [show c.kind = File.kindOf l x from congrArg Chunk.kind hx]
    exact congrArg Chunk.id hx

end Chunks

end Source

namespace Inference

open Source Text

section Files

variable {f : File} {l : Language} {chunks : List Chunk} {a : Chunk} {e : Dependency}
  {place : Location}

/-- The place of a call by a member of a file is that of a call in the text of its span. -/
theorem exists_callSite (h : f.root.WellFormed l f.bytes.length) (hn : (chunks.map Chunk.id).Nodup)
    (hsub : f.chunks l ⊆ chunks) (ha : a ∈ f.chunks l) (hk : a.kind.isMemberLike = true)
    (he : e ∈ (Graph.ofChunks chunks).edges) (hr : e.relationship = .calls) (hs : e.source = a.id)
    (hp : place ∈ e.locations) :
    ∃ first last, a.id = Chunk.idOf f.path a.kind first last ∧ a.startLine = lineOf f.bytes first ∧
      a.endLine = lastLineOf f.bytes first last ∧
      ∃ s ∈ callSites (textOf f.bytes first last), place = locationOf a s ∧
        ∃ b ∈ chunks, b.id = e.target ∧ b.name = some s.name := by
  obtain ⟨first, last, hid, hcontent, hstart, hend⟩ :=
    exists_span_of_isSymbol h.spanned ha (ChunkKind.isSymbol_of_isMemberLike hk)
  obtain ⟨a', ha', b, hb, -, rfl⟩ := exists_callOf hn he hr
  obtain rfl : a' = a := Chunk.eq_of_id_eq hn ha' (hsub ha) hs
  obtain ⟨s, hsite, hname, hplace⟩ := exists_site hp
  exact ⟨first, last, hid, hstart, hend, s, hcontent ▸ hsite, hplace, b, hb, rfl, hname⟩

/-- The places of the calls by a member of a file lie on its lines, and the name of what is called
stands in the file on the line of each place, whether the bytes of the file are well formed or
not. -/
theorem calls_on_lines (h : f.root.WellFormed l f.bytes.length) (hn : (chunks.map Chunk.id).Nodup)
    (hsub : f.chunks l ⊆ chunks) (ha : a ∈ f.chunks l) (hk : a.kind.isMemberLike = true)
    (he : e ∈ (Graph.ofChunks chunks).edges) (hr : e.relationship = .calls) (hs : e.source = a.id)
    (hp : place ∈ e.locations) :
    a.startLine ≤ place.line ∧ place.line ≤ a.endLine ∧
      ∃ b ∈ chunks, b.id = e.target ∧ ∃ name, b.name = some name ∧
        ∃ line, line? f.bytes place.line = some line ∧ name.toUTF8.toList <:+: line := by
  obtain ⟨first, last, -, hstart, hend, s, hsite, rfl, b, hb, hid, hname⟩ :=
    exists_callSite h hn hsub ha hk he hr hs hp
  obtain ⟨before, after, hline, -, -, hplain, hlast⟩ := exists_line hsite
  have hbytes : s.name.toUTF8.toList = Utf8.asciiBytes s.name.toList := by
    rw [← Utf8.toUTF8_ofList hplain, String.ofList_toList]
  refine ⟨Nat.le_add_right _ _, ?_, b, hb, hid, s.name, hname, _, hstart ▸ hline, ?_⟩
  · rw [hend, locationOf, hstart]
    exact hlast
  · rw [hbytes]
    exact ⟨indent f.bytes first s.lineOffset ++ before, after, by simp⟩

/-- The column of a call tells in characters where the name of what is called stands: on the line of
the place or, on the line a member starts on, on the part of that line from the member on. -/
theorem calls_on_columns (h : f.root.WellFormed l f.bytes.length) (hn : (chunks.map Chunk.id).Nodup)
    (hsub : f.chunks l ⊆ chunks) (ha : a ∈ f.chunks l) (hk : a.kind.isMemberLike = true)
    (he : e ∈ (Graph.ofChunks chunks).edges) (hr : e.relationship = .calls) (hs : e.source = a.id)
    (hp : place ∈ e.locations) :
    ∃ first last, a.id = Chunk.idOf f.path a.kind first last ∧
      ∃ b ∈ chunks, b.id = e.target ∧ ∃ name, b.name = some name ∧ ∃ rest,
        line? f.bytes place.line =
          some ((if place.line = a.startLine then lastLine 10 (f.bytes.take first) else []) ++
          rest) ∧
        name.toList <+: (Utf8.decode rest).toList.drop (place.column - 1) := by
  obtain ⟨first, last, haid, hstart, -, s, hsite, rfl, b, hb, hid, hname⟩ :=
    exists_callSite h hn hsub ha hk he hr hs hp
  obtain ⟨before, after, hline, hcolumn, hne, hplain, -⟩ := exists_line hsite
  have hindent : indent f.bytes first s.lineOffset =
      if (locationOf a s).line = a.startLine then lastLine 10 (f.bytes.take first) else [] := by
    simp [indent, locationOf]
  refine ⟨first, last, haid, b, hb, hid, s.name, hname, before ++ Utf8.asciiBytes s.name.toList ++
    after, ?_, ?_⟩
  · rw [← hindent, locationOf, hstart]
    exact hline
  · have hread : (Utf8.decode (before ++ Utf8.asciiBytes s.name.toList ++ after)).toList =
        Utf8.decodeFrom .start before ++ (s.name.toList ++ Utf8.decodeFrom .start after) := by
      rw [Utf8.decode, String.toList_ofList, Utf8.decodeFrom_append_word hplain hne Utf8.start_open,
        List.append_assoc]
    have hdrop : (locationOf a s).column - 1 = (Utf8.decodeFrom .start before).length := by
      rw [locationOf, ← hcolumn]
      rfl
    rw [hread, hdrop, List.drop_left]
    exact List.prefix_append _ _

end Files

section OneLineMethod

/-- A Python file with a class around a method on one line with a parameter of four bytes. -/
def oneLineMethod (parameter : List UInt8) : File where
  path := "a.py"
  bytes := Utf8.asciiBytes "class A:\n    def f(".toList ++ parameter ++
    Utf8.asciiBytes "): g()\n".toList
  root := .node { kind := "module", first := 0, last := 30 }
    [.node { kind := "class_definition", first := 0, last := 29 }
      [.node { kind := "identifier", first := 6, last := 7, field := some "name" } [],
      .node { kind := "block", first := 13, last := 29, field := some "body" }
        [.node { kind := "function_definition", first := 13, last := 29 }
          [.node { kind := "identifier", first := 17, last := 18, field := some "name" } [],
          .node { kind := "parameters", first := 18, last := 24, field := some "parameters" }
            [.node { kind := "identifier", first := 19, last := 23 } []],
          .node { kind := "block", first := 26, last := 29, field := some "body" }
            [.node { kind := "expression_statement", first := 26, last := 29 }
              [.node { kind := "call", first := 26, last := 29 }
                [.node
                  { kind := "identifier", first := 26, last := 27, field := some "function" } [],
                .node
                  { kind := "argument_list", first := 27, last := 29, field := some "arguments" }
                  []]]]]]]]

def calledFunction : File where
  path := "b.py"
  bytes := Utf8.asciiBytes "def g(): pass\n".toList
  root := .node { kind := "module", first := 0, last := 14 }
    [.node { kind := "function_definition", first := 0, last := 13 }
      [.node { kind := "identifier", first := 4, last := 5, field := some "name" } [],
      .node { kind := "parameters", first := 5, last := 7, field := some "parameters" } [],
      .node { kind := "block", first := 9, last := 13, field := some "body" }
        [.node { kind := "pass_statement", first := 9, last := 13 } []]]]

def bothFiles (parameter : List UInt8) : List Chunk :=
  (oneLineMethod parameter).chunks .python ++ calledFunction.chunks .python

def callRow (c : Chunk) : String × ChunkKind × Option String × Nat × String :=
  (c.id, c.kind, c.name, c.startLine, c.content)

def methodText (parameter : String) : String := "def f(" ++ parameter ++ "): g()"

def methodRows (parameter : String) : List (String × ChunkKind × Option String × Nat × String) :=
  [("a.py#file:0-30", .file, some "a.py", 1, "class A:\n    " ++ methodText parameter ++ "\n"),
    ("a.py#container:0-29", .container, some "A", 1, "class A:\n    " ++ methodText parameter),
    ("a.py#context:0-8", .context, none, 1, "class A:"),
    ("a.py#member:13-29", .member, some "f", 2, methodText parameter)]

def functionRows : List (String × ChunkKind × Option String × Nat × String) :=
  [("b.py#file:0-14", .file, some "b.py", 1, "def g(): pass\n"),
    ("b.py#orphaned_member:0-13", .orphanedMember, some "g", 1, "def g(): pass")]

theorem chunks_callRow (f : File) (l : Language) :
    (f.chunks l).map callRow = (f.tree l).map callRow :=
  Chunk.link_map (fun _ _ _ => rfl) _

theorem chunks_calledFunction : (calledFunction.chunks .python).map callRow = functionRows := by
  rw [chunks_callRow]
  decide +kernel

/-- The method and the function that it calls, if the file is read as it is meant. -/
theorem exists_place {bytes : List UInt8} {parameter : String}
    (hread : ((oneLineMethod bytes).tree .python).map callRow = methodRows parameter ∧
      ⟨"g", 0, 14, methodText parameter⟩ ∈ callSites (methodText parameter)) :
    ((bothFiles bytes).map Chunk.id).Nodup ∧
      ∃ a ∈ (oneLineMethod bytes).chunks .python, a.kind.isMemberLike = true ∧ a.startLine = 2 ∧
        ∃ b ∈ bothFiles bytes, b.name = some "g" ∧
          ∃ e ∈ (Graph.ofChunks (bothFiles bytes)).edges, e.relationship = .calls ∧
            e.source = a.id ∧ e.target = b.id ∧ ⟨2, 14, methodText parameter⟩ ∈ e.locations := by
  obtain ⟨htree, hsite⟩ := hread
  have hrows : ((oneLineMethod bytes).chunks .python).map callRow = methodRows parameter := by
    rw [chunks_callRow, htree]
  have hall : (bothFiles bytes).map callRow = methodRows parameter ++ functionRows := by
    rw [bothFiles, List.map_append, hrows, chunks_calledFunction]
  have hids : (bothFiles bytes).map Chunk.id =
      ["a.py#file:0-30", "a.py#container:0-29", "a.py#context:0-8",
      "a.py#member:13-29", "b.py#file:0-14", "b.py#orphaned_member:0-13"] := by
    have h := congrArg (List.map Prod.fst) hall
    rw [List.map_map] at h
    exact h
  have hn : ((bothFiles bytes).map Chunk.id).Nodup := by
    rw [hids]
    decide
  obtain ⟨a, ha, harow⟩ : ∃ a ∈ (oneLineMethod bytes).chunks .python,
      callRow a = ("a.py#member:13-29", .member, some "f", 2, methodText parameter) := by
    apply List.mem_map.mp
    rw [hrows]
    simp [methodRows]
  obtain ⟨b, hb, hbrow⟩ : ∃ b ∈ calledFunction.chunks .python,
      callRow b = ("b.py#orphaned_member:0-13", .orphanedMember, some "g", 1, "def g(): pass") := by
    apply List.mem_map.mp
    rw [chunks_calledFunction]
    simp [functionRows]
  simp only [callRow, Prod.mk.injEq] at harow hbrow
  obtain ⟨haid, hakind, haname, hastart, hacontent⟩ := harow
  obtain ⟨hbid, hbkind, hbname, -, -⟩ := hbrow
  have hamember : a.kind.isMemberLike = true := by rw [hakind]; rfl
  have hsites : (⟨"g", 0, 14, methodText parameter⟩ : CallSite) ∈ sitesOf a b := by
    apply List.mem_filter.mpr
    rw [hacontent, mayMean, hbname, haname]
    exact ⟨hsite, by simp⟩
  have hcalled : isCalled a b = true := by
    have hsome : (sitesOf a b).isEmpty = false := by simpa using List.ne_nil_of_mem hsites
    rw [isCalled, Chunk.isNamed, hbkind, hbname, hbid, haid, hsome]
    decide
  have hplace : locationOf a ⟨"g", 0, 14, methodText parameter⟩ =
      ⟨2, 14, methodText parameter⟩ := by
    rw [locationOf, hastart]
    rfl
  have hab : a ∈ bothFiles bytes := List.mem_append_left _ ha
  have hbb : b ∈ bothFiles bytes := List.mem_append_right _ hb
  exact ⟨hn, a, ha, hamember, hastart, b, hbb, hbname, callOf a b,
    callOf_mem_edges hn hab hamember hbb hcalled, rfl, rfl, rfl,
    hplace ▸ List.mem_map_of_mem hsites⟩

def selfParameter : List UInt8 := Utf8.asciiBytes "self".toList

def brokenParameter : List UInt8 := [0x73, 0x65, 0xff, 0x66]

theorem read_selfMethod :
    ((oneLineMethod selfParameter).tree .python).map callRow = methodRows "self" ∧
    ⟨"g", 0, 14, methodText "self"⟩ ∈ callSites (methodText "self") := by
  decide +kernel

theorem read_brokenMethod : ((oneLineMethod brokenParameter).tree .python).map callRow =
    methodRows "se\ufffdf" ∧
    ⟨"g", 0, 14, methodText "se\ufffdf"⟩ ∈ callSites (methodText "se\ufffdf") := by
  decide +kernel

theorem calls_on_lines_brokenMethod :
    ∃ a ∈ (oneLineMethod brokenParameter).chunks .python,
      ∃ e ∈ (Graph.ofChunks (bothFiles brokenParameter)).edges, e.source = a.id ∧
        ∃ place ∈ e.locations, a.startLine ≤ place.line ∧ place.line ≤ a.endLine ∧
          ∃ line, line? (oneLineMethod brokenParameter).bytes place.line = some line ∧
            "g".toUTF8.toList <:+: line := by
  have hw : (oneLineMethod brokenParameter).root.WellFormed .python
      (oneLineMethod brokenParameter).bytes.length := by
    decide
  obtain ⟨hn, a, ha, hk, -, b, hb, hname, e, he, hr, hs, ht, hp⟩ := exists_place read_brokenMethod
  obtain ⟨hfirst, hlast, b', hb', hid, name, hname', line, hline, hmem⟩ :=
    calls_on_lines hw hn (List.subset_append_left _ _) ha hk he hr hs hp
  obtain rfl : b' = b := Chunk.eq_of_id_eq hn hb' hb (hid.trans ht)
  obtain rfl := Option.some.inj (hname'.symm.trans hname)
  exact ⟨a, ha, e, he, hs, _, hp, hfirst, hlast, line, hline, hmem⟩

theorem selfMethod_wellFormed :
    (oneLineMethod selfParameter).root.WellFormed .python
      (oneLineMethod selfParameter).bytes.length := by
  decide

theorem calls_on_columns_selfMethod :
    ∃ a ∈ (oneLineMethod selfParameter).chunks .python,
      ∃ e ∈ (Graph.ofChunks (bothFiles selfParameter)).edges, e.source = a.id ∧
        ∃ place ∈ e.locations, place.line = a.startLine ∧ ∃ first last rest,
          a.id = Chunk.idOf "a.py" a.kind first last ∧
          line? (oneLineMethod selfParameter).bytes place.line =
            some (lastLine 10 ((oneLineMethod selfParameter).bytes.take first) ++ rest) ∧
          "g".toList <+: (Utf8.decode rest).toList.drop (place.column - 1) := by
  obtain ⟨hn, a, ha, hk, hstart, b, hb, hname, e, he, hr, hs, ht, hp⟩ :=
    exists_place read_selfMethod
  obtain ⟨first, last, haid, b', hb', hid, name, hname', rest, hline, hprefix⟩ :=
    calls_on_columns selfMethod_wellFormed hn (List.subset_append_left _ _) ha hk he hr hs hp
  obtain rfl : b' = b := Chunk.eq_of_id_eq hn hb' hb (hid.trans ht)
  obtain rfl := Option.some.inj (hname'.symm.trans hname)
  rw [if_pos hstart.symm] at hline
  exact ⟨a, ha, e, he, hs, _, hp, hstart.symm, first, last, rest, haid, hline, hprefix⟩

/-- On the line a member starts on, the column is not that of the line if something stands before
the member. -/
theorem not_on_columns_selfMethod :
    (oneLineMethod selfParameter).root.WellFormed .python
      (oneLineMethod selfParameter).bytes.length ∧
      (oneLineMethod selfParameter).bytes = "class A:\n    def f(self): g()\n".toUTF8.toList ∧
      ((bothFiles selfParameter).map Chunk.id).Nodup ∧
      (oneLineMethod selfParameter).chunks .python ⊆ bothFiles selfParameter ∧
      ∃ a ∈ (oneLineMethod selfParameter).chunks .python, a.kind.isMemberLike = true ∧
        ∃ e ∈ (Graph.ofChunks (bothFiles selfParameter)).edges, e.relationship = .calls ∧
          e.source = a.id ∧
          ∃ place ∈ e.locations, ∃ b ∈ bothFiles selfParameter, b.id = e.target ∧
            b.name = some "g" ∧
            ∃ line, line? (oneLineMethod selfParameter).bytes place.line = some line ∧
              ¬ "g".toList <+: (Utf8.decode line).toList.drop (place.column - 1) := by
  obtain ⟨hn, a, ha, hk, -, b, hb, hname, e, he, hr, hs, ht, hp⟩ := exists_place read_selfMethod
  have hbytes : (oneLineMethod selfParameter).bytes =
      "class A:\n    def f(self): g()\n".toUTF8.toList := by
    have hall : "class A:\n    def f(self): g()\n".toList.all (fun c =>
      0 < c.toNat && c.toNat < 0x80) = true := rfl
    have hplain : ∀ c ∈ "class A:\n    def f(self): g()\n".toList, Utf8.Plain c := by
      intro c hc
      have hbounds := List.all_eq_true.mp hall c hc
      rwa [Bool.and_eq_true, decide_eq_true_eq, decide_eq_true_eq] at hbounds
    have hutf8 := Utf8.toUTF8_ofList hplain
    rw [String.ofList_toList] at hutf8
    rw [hutf8]
    rfl
  refine ⟨selfMethod_wellFormed, hbytes, hn, List.subset_append_left _ _, a, ha, hk, e, he, hr, hs,
    _, hp, b, hb, ht.symm, hname, Utf8.asciiBytes "    def f(self): g()".toList, ?_, ?_⟩
  · decide +kernel
  · decide +kernel

end OneLineMethod

end Inference

end CodeAtlas
