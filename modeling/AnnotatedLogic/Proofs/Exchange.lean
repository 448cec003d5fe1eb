import AnnotatedLogic.Exchange.Program
import AnnotatedLogic.Proofs.Json.RoundTrip
/-!
# What is written is read back

The readers of documents take back what the writers have written, and what they write can be printed.

* `Faithful`: a value survives being written and read. One lemma for each way to put documents together,
  and from them one for each type.
* `Portable`: the values that documents carry. An interval has to be as readers make it, with the bounds of
  a truth value and nothing remembered from before; a count has to fit into 64 bits.
* `Program.json_roundTrip`: a portable program survives being printed, and no other one is printed
  like it.
-/

namespace AnnotatedLogic

open Document.Json (Writable Printable)

/-- The value is written as a document that a text can hold, and is read from this document. -/
structure Faithful {α : Type} (read : Reader α) (write : α → Document) (a : α) : Prop where
  writable : Writable (write a)
  reads : read (write a) = .value a

namespace Faithful

variable {α β : Type} {read : Reader α} {write : α → Document}

theorem text (s : String) : Faithful Reader.text .text s := ⟨.text s, rfl⟩

theorem boolean (b : Bool) : Faithful Reader.boolean .bool b := ⟨.bool b, rfl⟩

theorem natural {n : Nat} (h : n < 2 ^ 64) : Faithful Reader.natural .natural n :=
  ⟨.natural h, by simp [Document.natural, Reader.natural]⟩

theorem number {x : Float} (h : Printable x) : Faithful Reader.number .real x := ⟨.real h, rfl⟩

theorem optional (hnull : ∀ a, write a ≠ .null) {o : Option α} (h : ∀ a ∈ o, Faithful read write a) :
    Faithful (Reader.optional read) (.optional write) o := by
  cases o with
  | none => exact ⟨.null, rfl⟩
  | some a =>
    obtain ⟨hwritable, hreads⟩ := h a rfl
    refine ⟨hwritable, ?_⟩
    show Reader.optional read (write a) = _
    rw [Reader.optional, hreads]
    · rfl
    · exact hnull a

private theorem listFrom_map {xs : List α} (h : ∀ a ∈ xs, Faithful read write a) (position : Nat) :
    Reader.listFrom read position (xs.map write) = .value xs := by
  induction xs generalizing position with
  | nil => rfl
  | cons a xs ih =>
    rw [List.map_cons, Reader.listFrom, (h a List.mem_cons_self).reads,
      ih fun b hb => h b (List.mem_cons_of_mem a hb)]
    rfl

theorem list (xs : List α) (h : ∀ a ∈ xs, Faithful read write a) :
    Faithful (Reader.list read) (.list write) xs := by
  refine ⟨.array fun d hd => ?_, listFrom_map h 0⟩
  obtain ⟨a, ha, rfl⟩ := List.mem_map.1 hd
  exact (h a ha).writable

/-- Two values one after the other. -/
theorem pair {readB : Reader β} {writeB : β → Document} {a : α} {b : β} (ha : Faithful read write a)
    (hb : Faithful readB writeB b) :
    Faithful (Reader.pair read readB) (fun p => .array [write p.1, writeB p.2]) (a, b) := by
  refine ⟨.array (by simp [ha.writable, hb.writable]), ?_⟩
  unfold Reader.pair
  dsimp only
  rw [ha.reads, hb.reads]
  rfl

end Faithful

/-- A part whose key is there once is read from its field. -/
theorem Record.part_eq {α : Type} {fs : List (String × Document)} {key : String} {position : Nat}
    {d : Document} {read : Reader α} {a : α} (hkey : occurrences key 0 fs = [(position, d)])
    (h : read d = .value a) (place : Nat) (absent : Option α) :
    (fields fs).part place key read absent = .value a := by
  unfold part
  dsimp only
  rw [hkey]
  dsimp only
  rw [h]
  rfl

/-! ## Names, components and intervals -/

theorem Label.faithful (l : Label) : Faithful Label.reader Label.toDocument l := ⟨.text _, rfl⟩

theorem Node.faithful (n : Node) : Faithful Node.reader Node.toDocument n := ⟨.text _, rfl⟩

theorem Edge.faithful (e : Edge) : Faithful Edge.reader Edge.toDocument e := by
  obtain ⟨hwritable, hreads⟩ := e.source.faithful.pair e.target.faithful
  refine ⟨hwritable, ?_⟩
  unfold Edge.reader Edge.toDocument
  rw [hreads]
  rfl

theorem Component.faithful (c : Component) : Faithful Component.reader Component.toDocument c := by
  cases c with
  | node n => exact ⟨.object (by simp [n.faithful.writable]), rfl⟩
  | edge e => exact ⟨.object (by simp [e.faithful.writable]), rfl⟩

theorem ComponentKind.faithful (k : ComponentKind) :
    Faithful ComponentKind.reader ComponentKind.toDocument k := by
  cases k <;> exact ⟨.text _, rfl⟩

/-- An interval as documents carry it. -/
structure Interval.Portable (i : Interval) : Prop where
  /-- The bounds are those of a truth value, and the interval is as if it were new. -/
  fresh : closed? i.lower i.upper = some i
  lower : Printable i.lower
  upper : Printable i.upper

theorem Interval.Portable.faithful {i : Interval} (h : i.Portable) :
    Faithful Interval.reader Interval.toDocument i := by
  obtain ⟨hwritable, hreads⟩ := (Faithful.number h.lower).pair (Faithful.number h.upper)
  refine ⟨hwritable, ?_⟩
  unfold Interval.reader Interval.toDocument
  rw [hreads]
  unfold Reading.check ofBounds
  simp only [h.fresh]

theorem Pairing.faithful (p : Pairing) : Faithful Pairing.reader Pairing.toDocument p := by
  have hpairs := Faithful.list p.pairs fun pair _ => pair.1.faithful.pair pair.2.faithful
  refine ⟨hpairs.writable, ?_⟩
  unfold Pairing.reader Pairing.toDocument
  rw [hpairs.reads]
  rfl

theorem Labelling.faithful (l : Labelling) : Faithful Labelling.reader Labelling.toDocument l := by
  have hnode := Faithful.list l.node fun label _ => label.faithful
  have hedge := Faithful.list l.edge fun label _ => label.faithful
  have hspecificNode := Faithful.list l.specificNode fun entry _ =>
    entry.1.faithful.pair (Faithful.list entry.2 fun n _ => n.faithful)
  have hspecificEdge := Faithful.list l.specificEdge fun entry _ =>
    entry.1.faithful.pair (Faithful.list entry.2 fun e _ => e.faithful)
  refine ⟨.object ?_, ?_⟩
  · simp only [List.forall_mem_cons]
    exact ⟨hnode.writable, hedge.writable, hspecificNode.writable, hspecificEdge.writable, nofun⟩
  · unfold Labelling.reader Labelling.toDocument Reader.record Record.defaulting
    dsimp only
    rw [Record.part_eq rfl hnode.reads, Record.part_eq rfl hedge.reads,
      Record.part_eq rfl hspecificNode.reads, Record.part_eq rfl hspecificEdge.reads]
    rfl

/-! ## Facts and rules -/

/-- A fact as documents carry it. -/
structure Fact.Portable (f : Fact) : Prop where
  bound : f.bound.Portable
  tLower : f.tLower < 2 ^ 64
  tUpper : f.tUpper < 2 ^ 64

theorem Fact.Portable.faithful {f : Fact} (h : f.Portable) : Faithful Fact.reader Fact.toDocument f := by
  have hbound := h.bound.faithful
  have hlower := Faithful.natural h.tLower
  have hupper := Faithful.natural h.tUpper
  refine ⟨.object ?_, ?_⟩
  · simp only [List.forall_mem_cons]
    exact ⟨.text _, f.target.faithful.writable, f.label.faithful.writable, hbound.writable,
      hlower.writable, hupper.writable, .bool _, .bool _, nofun⟩
  · unfold Fact.reader Fact.toDocument Reader.record Record.required Record.defaulting
    dsimp only
    rw [Record.part_eq rfl (Faithful.text f.name).reads, Record.part_eq rfl f.target.faithful.reads,
      Record.part_eq rfl f.label.faithful.reads, Record.part_eq rfl hbound.reads,
      Record.part_eq rfl hlower.reads, Record.part_eq rfl hupper.reads,
      Record.part_eq rfl (Faithful.boolean f.isStatic).reads,
      Record.part_eq rfl (Faithful.boolean f.fromAttribute).reads]
    rfl

theorem Comparison.reads (c : Comparison) : Comparison.reader (.text c.word) = .value c := by
  cases c <;> rfl

theorem Quantifier.reads (q : Quantifier) : Quantifier.reader (.text q.key) = .value q := by
  cases q <;> rfl

theorem Subset.reads (s : Subset) : Subset.reader (.text s.word) = .value s := by
  cases s <;> rfl

theorem Threshold.faithful {t : Threshold} (h : Printable t.value) :
    Faithful Threshold.reader Threshold.toDocument t := by
  have hvalue := Faithful.number h
  refine ⟨.object ?_, ?_⟩
  · simp only [List.forall_mem_cons]
    exact ⟨.text _, .text _, .text _, hvalue.writable, nofun⟩
  · unfold Threshold.reader Threshold.toDocument Reader.record Record.required
    dsimp only
    rw [Record.part_eq rfl t.comparison.reads, Record.part_eq rfl t.quantifier.reads,
      Record.part_eq rfl t.subset.reads, Record.part_eq rfl hvalue.reads]
    rfl

/-- A clause as documents carry it. -/
structure Clause.Portable (c : Clause) : Prop where
  bound : c.bound.Portable
  threshold : Printable c.threshold.value

theorem Clause.Portable.faithful {c : Clause} (h : c.Portable) :
    Faithful Clause.reader Clause.toDocument c := by
  have hbound := h.bound.faithful
  have hthreshold := Threshold.faithful h.threshold
  refine ⟨.object ?_, ?_⟩
  · simp only [List.forall_mem_cons]
    exact ⟨c.kind.faithful.writable, c.label.faithful.writable, hbound.writable, hthreshold.writable,
      nofun⟩
  · unfold Clause.reader Clause.toDocument Reader.record Record.required Record.defaulting
    dsimp only
    rw [Record.part_eq rfl c.kind.faithful.reads, Record.part_eq rfl c.label.faithful.reads,
      Record.part_eq rfl hbound.reads, Record.part_eq rfl hthreshold.reads]
    rfl

theorem AnnotationFunction.faithful (f : AnnotationFunction) :
    Faithful AnnotationFunction.reader AnnotationFunction.toDocument f := by
  have hnamed : named f.name = .ok f := by cases f <;> decide +kernel
  refine ⟨.text _, ?_⟩
  unfold AnnotationFunction.reader toDocument Reader.text Reading.check ofName
  dsimp only
  rw [hnamed]

/-- A head as documents carry it. -/
def Head.Portable : Head → Prop
  | bound b => b.Portable
  | computed _ => True

theorem Head.Portable.faithful {head : Head} (h : head.Portable) (delivery : Delivery) :
    Faithful (Head.reader delivery) Head.toDocument head := by
  cases head with
  | bound b =>
    obtain ⟨hwritable, hreads⟩ := Interval.Portable.faithful h
    refine ⟨.object (by simp [hwritable]), ?_⟩
    show ((Head.bound <$> Interval.reader b.toDocument).within 0 : Reading Head) = _
    rw [hreads]
    rfl
  | computed f =>
    obtain ⟨hwritable, hreads⟩ := f.faithful
    refine ⟨.object (by simp [hwritable]), ?_⟩
    show ((Head.computed <$> AnnotationFunction.reader f.toDocument).within 0 : Reading Head) = _
    rw [hreads]
    rfl

/-- An end of inferred edges as documents carry it. -/
def Endpoint.Portable : Endpoint → Prop
  | target => True
  | clause index => index < 2 ^ 64

theorem Endpoint.Portable.faithful {e : Endpoint} (h : e.Portable) :
    Faithful Endpoint.reader Endpoint.toDocument e := by
  cases e with
  | target => exact ⟨.text _, rfl⟩
  | clause index =>
    obtain ⟨hwritable, hreads⟩ := Faithful.natural h
    refine ⟨.object (by simp [hwritable]), ?_⟩
    show ((Endpoint.clause <$> Reader.natural (.natural index)).within 0 : Reading Endpoint) = _
    rw [hreads]
    rfl

/-- Inferred edges as documents carry them. -/
structure EdgeInference.Portable (e : EdgeInference) : Prop where
  source : e.source.Portable
  target : e.target.Portable

theorem EdgeInference.Portable.faithful {e : EdgeInference} (h : e.Portable) :
    Faithful EdgeInference.reader EdgeInference.toDocument e := by
  have hsource := h.source.faithful
  have htarget := h.target.faithful
  have hlabel := Faithful.optional (o := e.label) (fun _ => Document.noConfusion) fun l _ => l.faithful
  refine ⟨.object ?_, ?_⟩
  · simp only [List.forall_mem_cons]
    exact ⟨hsource.writable, htarget.writable, hlabel.writable, nofun⟩
  · unfold EdgeInference.reader EdgeInference.toDocument Reader.record Record.required Record.defaulting
    dsimp only
    rw [Record.part_eq rfl hsource.reads, Record.part_eq rfl htarget.reads,
      Record.part_eq rfl hlabel.reads]
    rfl

/-- A rule as documents carry it. -/
structure Rule.Portable (r : Rule) : Prop where
  criteria : ∀ c ∈ r.criteria, c.2.Portable
  delay : r.delay < 2 ^ 64
  clauses : ∀ c ∈ r.clauses, c.Portable
  head : r.head.Portable
  weights : ∀ x ∈ r.weights, Printable x
  inference : ∀ e ∈ r.inference, e.Portable

theorem Rule.Portable.faithful {r : Rule} (h : r.Portable) (delivery : Delivery) :
    Faithful (Rule.reader delivery) Rule.toDocument r := by
  have hcriteria := Faithful.list r.criteria fun c hc =>
    c.1.faithful.pair (h.criteria c hc).faithful
  have hdelay := Faithful.natural h.delay
  have hclauses := Faithful.list _ fun c hc => (h.clauses c hc).faithful
  have hhead := h.head.faithful delivery
  have hweights := Faithful.list _ fun x hx => Faithful.number (h.weights x hx)
  have hinference := Faithful.optional (fun _ => Document.noConfusion) fun e he =>
    (h.inference e he).faithful
  refine ⟨.object ?_, ?_⟩
  · simp only [List.forall_mem_cons]
    exact ⟨.text _, r.kind.faithful.writable, r.target.faithful.writable, hcriteria.writable,
      hdelay.writable, hclauses.writable, hhead.writable, hweights.writable, hinference.writable,
      .bool _, .bool _, nofun⟩
  · unfold Rule.reader Rule.toDocument Reader.record Record.required Record.defaulting
    dsimp only
    rw [Record.part_eq rfl (Faithful.text r.name).reads, Record.part_eq rfl r.kind.faithful.reads,
      Record.part_eq rfl r.target.faithful.reads, Record.part_eq rfl hcriteria.reads,
      Record.part_eq rfl hdelay.reads, Record.part_eq rfl hclauses.reads,
      Record.part_eq rfl hhead.reads, Record.part_eq rfl hweights.reads,
      Record.part_eq rfl hinference.reads, Record.part_eq rfl (Faithful.boolean r.immediate).reads,
      Record.part_eq rfl (Faithful.boolean r.isStatic).reads]
    rfl

/-! ## Programs -/

theorem GraphAttribute.faithful {a : GraphAttribute} (h : a.bound.Portable) :
    Faithful GraphAttribute.reader GraphAttribute.toDocument a := by
  have hbound := h.faithful
  refine ⟨.object ?_, ?_⟩
  · simp only [List.forall_mem_cons]
    exact ⟨a.component.faithful.writable, a.label.faithful.writable, hbound.writable, nofun⟩
  · unfold GraphAttribute.reader GraphAttribute.toDocument Reader.record Record.required
    dsimp only
    rw [Record.part_eq rfl a.component.faithful.reads, Record.part_eq rfl a.label.faithful.reads,
      Record.part_eq rfl hbound.reads]
    rfl

theorem GraphOutline.faithful {g : GraphOutline} (h : ∀ a ∈ g.attributes, a.bound.Portable) :
    Faithful GraphOutline.reader GraphOutline.toDocument g := by
  have hnodes := Faithful.list g.nodes fun n _ => n.faithful
  have hedges := Faithful.list g.edges fun e _ => e.faithful
  have hattributes := Faithful.list _ fun a ha => GraphAttribute.faithful (h a ha)
  refine ⟨.object ?_, ?_⟩
  · simp only [List.forall_mem_cons]
    exact ⟨hnodes.writable, hedges.writable, .bool _, .bool _, hattributes.writable, nofun⟩
  · unfold GraphOutline.reader GraphOutline.toDocument Reader.record Record.defaulting
    dsimp only
    rw [Record.part_eq rfl hnodes.reads, Record.part_eq rfl hedges.reads,
      Record.part_eq rfl (Faithful.boolean g.directed).reads,
      Record.part_eq rfl (Faithful.boolean g.reverse).reads, Record.part_eq rfl hattributes.reads]
    rfl

namespace Program

/-- A program as documents carry it: its intervals are as if they were new, its counts fit into 64 bits,
and its numbers can be printed. -/
structure Portable (p : Program) : Prop where
  attributes : ∀ a ∈ p.graph.attributes, a.bound.Portable
  facts : ∀ f ∈ p.facts, f.Portable
  rules : ∀ r ∈ p.rules, r.Portable

theorem Portable.faithful {p : Program} (h : p.Portable) :
    Faithful Program.reader Program.toDocument p := by
  have hgraph := GraphOutline.faithful h.attributes
  have hfacts := Faithful.list _ fun f hf => (h.facts f hf).faithful
  have hrules := Faithful.list _ fun r hr => (h.rules r hr).faithful .text
  refine ⟨.object ?_, ?_⟩
  · simp only [List.forall_mem_cons]
    exact ⟨hgraph.writable, p.labels.faithful.writable, p.pairing.faithful.writable, hfacts.writable,
      hrules.writable, nofun⟩
  · unfold Program.reader Program.toDocument Reader.record Record.defaulting
    dsimp only
    rw [Record.part_eq rfl hgraph.reads, Record.part_eq rfl p.labels.faithful.reads,
      Record.part_eq rfl p.pairing.faithful.reads, Record.part_eq rfl hfacts.reads,
      Record.part_eq rfl hrules.reads]
    rfl

theorem ofJson_toJson {p : Program} (h : p.Portable) : ofJson p.toJson = .ok p := by
  obtain ⟨hwritable, hreads⟩ := h.faithful
  unfold ofJson toJson
  rw [Document.Json.parse_pretty hwritable]
  dsimp only
  rw [hreads]
  rfl

/-- A program that is printed is read back as it was, so two programs with the same text are the same. -/
theorem json_roundTrip {p q : Program} (hp : p.Portable) (hq : q.Portable) :
    ofJson p.toJson = .ok p ∧ (p.toJson = q.toJson ↔ p = q) := by
  refine ⟨ofJson_toJson hp, fun h => ?_, congrArg toJson⟩
  have hread := ofJson_toJson hp
  rw [h, ofJson_toJson hq] at hread
  exact (Except.ok.inj hread).symm

private theorem printable_seven_tenths : Printable 0.7 :=
  ⟨by decide +kernel, ⟨false, ['0'], ['7'], none⟩, by decide +kernel, by decide +kernel,
    by decide +kernel⟩

private theorem printable_one : Printable 1 :=
  ⟨by decide +kernel, ⟨false, ['1'], ['0'], none⟩, by decide +kernel, by decide +kernel,
    by decide +kernel⟩

/-- Names with quotes, line breaks and letters beyond ASCII survive, and so does a rule with a threshold
and inferred edges. -/
theorem json_roundTrip_quotes :
    let b : Interval := .fresh 0.7 1
    let rule : Rule :=
      { Rule.simple .node "r" ⟨"q"⟩ with
        criteria := [(⟨"p"⟩, b)]
        clauses := [⟨.node, ⟨"p"⟩, b, ⟨.greater, .percent, .total, 0.7⟩⟩]
        head := .computed .average
        weights := [0.7, 1]
        inference := some ⟨.target, .clause 0, some ⟨"e"⟩⟩ }
    let p : Program :=
      { graph := { nodes := [⟨"a"⟩], attributes := [⟨.node ⟨"a"⟩, ⟨"\"p\"\n"⟩, b⟩] }
        facts := [⟨"é", .edge ⟨⟨"a"⟩, ⟨"\\"⟩⟩, ⟨"p"⟩, b, 0, 3, false, false⟩]
        rules := [rule] }
    let q : Program := { p with pairing := ⟨[(⟨"p"⟩, ⟨"q"⟩)]⟩ }
    ofJson p.toJson = .ok p ∧ p.toJson ≠ q.toJson := by
  intro b rule p q
  have hb : b.Portable := ⟨by decide +kernel, printable_seven_tenths, printable_one⟩
  have hrule : rule.Portable :=
    { criteria := by simpa [rule] using hb
      delay := by decide
      clauses := by simpa [rule] using ⟨hb, printable_seven_tenths⟩
      head := trivial
      weights := by simpa [rule] using ⟨printable_seven_tenths, printable_one⟩
      inference := fun e he => by
        cases he
        exact ⟨trivial, (by decide : 0 < 2 ^ 64)⟩ }
  have hp : p.Portable :=
    { attributes := by simpa [p] using hb
      facts := by simpa [p] using ⟨hb, by decide, by decide⟩
      rules := by simpa [p] using hrule }
  have hq : q.Portable := ⟨hp.attributes, hp.facts, hp.rules⟩
  have hne : p ≠ q := fun h => by
    have hpairs := congrArg (·.pairing.pairs) h
    cases hpairs
  obtain ⟨hread, hsame⟩ := json_roundTrip hp hq
  exact ⟨hread, fun h => hne (hsame.1 h)⟩

end Program

end AnnotatedLogic
