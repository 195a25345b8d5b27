import NativeBackend.Proofs.Heap.Failures

namespace NativeBackend

namespace Heap

open Steps

theorem valueLiteral_ne_overlapping {d : Descriptor} {value : HeapValue} {h h' : Heap} {field owner : String} :
    valueLiteral d value h ≠ .error (.internal (.overlappingField field owner)) h' := by
  intro hv
  obtain ⟨-, -, hfault⟩ := valueLiteral_eq_error hv
  cases htext : value.textIn h.store <;> rw [htext] at hfault <;> cases hfault

theorem fieldLiterals_ne_overlapping {cls : ClassDef} {values : List (String × HeapValue)} {finish cursor : Int}
    {fs : List Field} (hcursor : ∀ f ∈ fs, cursor ≤ f.offset) (hprecedes : fs.Pairwise Field.Precedes) {h h' : Heap}
    {field owner : String} :
    fieldLiterals cls values finish cursor fs h ≠ .error (.internal (.overlappingField field owner)) h' := by
  induction fs generalizing cursor h with
  | nil => rintro ⟨⟩
  | cons f rest ih =>
      rw [List.pairwise_cons] at hprecedes
      have hstart : ¬ f.offset < cursor := Int.not_lt.2 (hcursor f List.mem_cons_self)
      rw [fieldLiterals, if_neg hstart]
      intro herror
      rcases bind_eq_error.1 herror with hvalue | ⟨literal, h₁, -, hrest⟩
      · exact valueLiteral_ne_overlapping hvalue
      · rcases bind_eq_error.1 hrest with hrest | ⟨literals, h₂, -, hdone⟩
        · exact ih hprecedes.1 hprecedes.2 hrest
        · cases hdone

theorem instanceLiteral_ne_overlapping {cls : ClassDef} (hbuilt : cls.Built) {values : List (String × HeapValue)}
    {h h' : Heap} {field owner : String} :
    instanceLiteral cls values h ≠ .error (.internal (.overlappingField field owner)) h' := by
  intro herror
  rcases bind_eq_error.1 herror with hfields | ⟨literals, h₁, -, hdone⟩
  · rw [mergeSort_instanceFields hbuilt] at hfields
    refine fieldLiterals_ne_overlapping (fun f hf => ?_) (hbuilt.made.apart hbuilt.interfacesBare).precedes hfields
    have := (hbuilt.fields_inside.2 f hf).1
    omega
  · cases hdone

end Heap

namespace ClassDef

/-- Instances have room for their header and for each field, at a multiple of the field's size. No two fields share a
byte: each ends before the next one starts, those of superclasses first. An instance starts like one of any
superclass, and is never smaller. So no instance is refused because its fields overlap. -/
theorem Built.layout_sound {c : ClassDef} (hc : c.Built) :
    (∀ f ∈ c.instanceFields, objectHeaderSize ≤ f.offset ∧ (f.descriptor ≠ .void → f.size ∣ f.offset) ∧
      f.offset + f.size ≤ c.instanceSize) ∧
    c.instanceFields.Pairwise (fun f g => f.offset + f.size ≤ g.offset) ∧
    0 < c.instanceSize ∧ 8 ∣ c.instanceSize ∧
    (∀ a ∈ c.ancestors, a.instanceSize ≤ c.instanceSize ∧ a.instanceFields <+: c.instanceFields) ∧
    ∀ values h h' field owner,
      Heap.literal (.instanceOf c values) h ≠ .error (.internal (.overlappingField field owner)) h' := by
  obtain ⟨hroom, hinside⟩ := hc.fields_inside
  obtain ⟨haligned, hsize⟩ := hc.made.aligned
  refine ⟨fun f hf => ⟨(hinside f hf).1, fun hvoid => ?_, (hinside f hf).2⟩,
    (hc.made.apart hc.interfacesBare).precedes, by omega, hsize, fun a ha => ?_,
    fun values h h' field owner => Heap.instanceLiteral_ne_overlapping hc⟩
  · exact haligned f hf (Descriptor.size_valueType_pos hvoid)
  · exact hc.inherits a (by rw [lineage_eq]; exact List.mem_cons_of_mem _ ha)

def meter : ClassDef :=
  ⟨"Meter", 20, .abstractClass, none, [], [], [⟨"ready", .boolean, false, 8⟩, ⟨"made", .long, true, 0⟩,
    ⟨"total", .long, false, 16⟩, ⟨"unit", .char, false, 24⟩], 32⟩

def gauge : ClassDef :=
  ⟨"Gauge", 21, .concrete, some meter, [], [], [⟨"low", .short, false, 32⟩, ⟨"peak", .double, false, 40⟩,
    ⟨"next", .object "Gauge", false, 48⟩, ⟨"step", .byte, false, 56⟩], 64⟩

theorem built_gauge : gauge.Built := by
  refine @Built.of_build "Gauge" 21 .concrete (some meter) [] []
    [⟨"low", "S", false⟩, ⟨"peak", "D", false⟩, ⟨"next", "LGauge;", false⟩, ⟨"step", "B", false⟩] gauge ?_
    (by decide) rfl
  rintro a ⟨⟩
  exact @Built.of_build "Meter" 20 .abstractClass none [] []
    [⟨"ready", "Z", false⟩, ⟨"made", "J", true⟩, ⟨"total", "J", false⟩, ⟨"unit", "C", false⟩] meter
    (by rintro _ ⟨⟩) (by decide) rfl

theorem layout_sound_gauge : gauge.Built ∧
    gauge.instanceFields.Pairwise (fun f g => f.offset + f.size ≤ g.offset) ∧
    (Field.mk "peak" .double false 40).size ∣ 40 ∧
    meter.instanceSize ≤ gauge.instanceSize ∧ meter.instanceFields <+: gauge.instanceFields ∧
    ∀ h h' field owner, Heap.literal (.instanceOf gauge [("low", .short 3)]) h ≠
      .error (.internal (.overlappingField field owner)) h' := by
  obtain ⟨hfields, hapart, -, -, hinherited, hwritten⟩ := built_gauge.layout_sound
  obtain ⟨hsize, hstart⟩ := hinherited meter (by simp [ancestors, gauge, lineageOf, lineage_eq])
  exact ⟨built_gauge, hapart, (hfields ⟨"peak", .double, false, 40⟩ (by decide)).2.1 (by decide), hsize, hstart,
    hwritten [("low", .short 3)]⟩

end ClassDef

end NativeBackend
