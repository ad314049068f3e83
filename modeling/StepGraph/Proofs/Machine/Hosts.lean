import StepGraph.Host.Defaults
import StepGraph.Proofs.Machine.Operations

namespace StepGraph

variable {α β : Type}

-- What holds between an operation and the same operation with other services: a quiet operation
-- has it with itself, and it goes from the parts to the whole.
structure Exec.Law where
  Holds : ∀ {α : Type}, Exec α → Exec α → Prop
  quiet : ∀ {α : Type} {x : Exec α}, Quiet x → Holds x x
  bind : ∀ {α β : Type} {x y : Exec α} {f g : α → Exec β}, Holds x y →
    (∀ a, Holds (f a) (g a)) → Holds (x >>= f) (y >>= g)

theorem Exec.Law.pure (L : Exec.Law) (a : α) : L.Holds (pure a : Exec α) (pure a) :=
  L.quiet (Quiet.trait.pure a)

-- The same of operations that have nothing to do with the scopes. Less is asked of what holds then.
structure Exec.Regime where
  Holds : ∀ {α : Type}, Exec α → Exec α → Prop
  apart : ∀ {α : Type} {x : Exec α}, Apart x → Holds x x
  bind : ∀ {α β : Type} {x y : Exec α} {f g : α → Exec β}, Holds x y →
    (∀ a, Holds (f a) (g a)) → Holds (x >>= f) (y >>= g)

def Exec.Law.regime (L : Exec.Law) : Exec.Regime := ⟨L.Holds, fun h => L.quiet h.quiet, L.bind⟩

namespace Exec.Regime

variable (R : Exec.Regime)

theorem of_apart {x : Exec α} (hx : Apart.trait.Holds x) : R.Holds x x := R.apart hx

theorem pure (a : α) : R.Holds (pure a : Exec α) (pure a) := R.of_apart (Apart.trait.pure a)

theorem mapM {l : List α} {f g : α → Exec β} (hf : ∀ a, R.Holds (f a) (g a)) :
    R.Holds (l.mapM f) (l.mapM g) := by
  induction l with
  | nil => exact R.pure _
  | cons a l ih =>
      rw [List.mapM_cons, List.mapM_cons]
      exact R.bind (hf a) fun _ => R.bind ih fun _ => R.pure _

end Exec.Regime

-- The services know the same types, and their calls are related.
structure Services.Related (L : Exec.Law) (sv sv' : Services) : Prop where
  types : sv'.types = sv.types
  call : ∀ callee args, L.Holds (sv.call callee args) (sv'.call callee args)

-- A function of the embedder has no other hold on the machine than the services that it is given.
-- What relates the calls of the services relates the function with the one and the other services.
def HostFunction.Behaves (f : HostFunction) : Prop :=
  ∀ (L : Exec.Law) (sv sv' : Services), sv.Related L sv' → ∀ args,
    L.Holds (f sv args) (f sv' args)

def HostRegistry.Behaves (r : HostRegistry) : Prop :=
  ∀ ref f, r.function? ref = some f → HostFunction.Behaves f

structure Services.Akin (R : Exec.Regime) (sv sv' : Services) : Prop where
  types : sv'.types = sv.types
  call : ∀ callee args, R.Holds (sv.call callee args) (sv'.call callee args)

-- A function of the embedder has no hold on the scopes of the machine either.
def HostFunction.Aloof (f : HostFunction) : Prop :=
  ∀ (R : Exec.Regime) (sv sv' : Services), sv.Akin R sv' → ∀ args,
    R.Holds (f sv args) (f sv' args)

def HostRegistry.Aloof (r : HostRegistry) : Prop :=
  ∀ ref f, r.function? ref = some f → HostFunction.Aloof f

theorem Services.Related.akin {L : Exec.Law} {sv sv' : Services} (h : sv.Related L sv') :
    sv.Akin L.regime sv' := ⟨h.types, h.call⟩

theorem HostFunction.Aloof.behaves {f : HostFunction} (h : f.Aloof) : f.Behaves :=
  fun L sv sv' hsv => h L.regime sv sv' hsv.akin

theorem HostRegistry.Aloof.behaves {r : HostRegistry} (h : r.Aloof) : r.Behaves :=
  fun ref f hf => (h ref f hf).behaves

namespace Services

open Exec (Apart Trait)

variable {R : Exec.Regime} {sv sv' : Services}

attribute [local grind ←] Exec.Regime.pure Exec.Regime.bind Exec.Regime.mapM Exec.Regime.of_apart
  Trait.heap Trait.ofExcept Trait.tried Trait.bind Trait.pure Heap.underflowFree_load
  Heap.underflowFree_deref TypeTable.underflowFree_hasMethod TypeTable.gentle_method

namespace Akin

theorem ownText (h : sv.Akin R sv') (v : Value) : R.Holds (sv.ownText v) (sv'.ownText v) := by
  have hmethod : ∀ name, R.Holds (sv.methodText v name) (sv'.methodText v name) := by
    intro name
    have hbound : Apart.trait.Holds (sv.boundMethod v name) := by
      unfold boundMethod
      grind
    have hsame : sv'.boundMethod v name = sv.boundMethod v name := by
      unfold boundMethod
      rw [h.types]
    have hcall : ∀ f, R.Holds (sv.call f []) (sv'.call f []) := fun f => h.call f []
    unfold methodText
    rw [hsame, h.types]
    refine R.bind (R.of_apart Apart.trait.heap) fun hp =>
      R.bind (R.of_apart (Apart.trait.ofExcept (TypeTable.underflowFree_hasMethod _ _ _ _)))
        fun has => ?_
    split
    · refine R.bind (R.of_apart hbound) fun found => ?_
      split
      · exact R.bind (hcall _) fun _ => R.pure _
      · exact R.pure _
    · exact R.pure _
  unfold Services.ownText
  split
  · refine R.bind (hmethod _) fun text => ?_
    split
    · exact R.pure _
    · exact hmethod _
  · exact R.pure _

end Akin

theorem holds_showBare {inner inner' : Value → Exec String}
    (hinner : ∀ v, R.Holds (inner v) (inner' v)) (plus top : Bool) (v : Value) :
    R.Holds (showBare inner plus top v) (showBare inner' plus top v) := by
  unfold showBare
  split
  all_goals first
    | exact R.pure _
    | exact R.bind (R.of_apart Apart.trait.heap) fun _ => R.bind (R.mapM hinner) fun _ => R.pure _
    | skip
  · exact R.bind (R.of_apart Apart.trait.heap) fun _ => R.bind (R.mapM fun e =>
      R.bind (hinner _) fun _ => R.bind (hinner _) fun _ => R.pure _) fun _ => R.pure _
  · exact R.bind (R.of_apart Apart.trait.heap) fun _ => R.bind (R.mapM fun e =>
      R.bind (hinner _) fun _ => R.pure _) fun _ => R.pure _
  · next a =>
    refine R.bind (R.of_apart Apart.trait.heap) fun h =>
      R.bind (R.of_apart (Apart.trait.ofExcept (h.underflowFree_load a))) fun target => ?_
    split
    · exact R.bind (hinner _) fun _ => R.pure _
    · exact R.pure _

namespace Akin

theorem showWhole (h : sv.Akin R sv') (plus : Bool) (v : Value) :
    R.Holds (sv.showWhole plus v) (sv'.showWhole plus v) := by
  have hwith : ∀ inner inner' : Value → Exec String, (∀ v, R.Holds (inner v) (inner' v)) →
      ∀ top v, R.Holds (sv.showWith inner plus top v) (sv'.showWith inner' plus top v) := by
    intro inner inner' hinner top v
    have hown := h.ownText
    have hbare := holds_showBare hinner plus
    induction v with
    | named t v ih =>
        unfold showWith
        refine R.bind (hown _) fun text => ?_
        split
        · exact R.pure _
        · exact ih
    | _ =>
        unfold showWith
        refine R.bind (hown _) fun text => ?_
        split
        · exact R.pure _
        · exact hbare _ _
  have hupTo : ∀ n top v, R.Holds (sv.showUpTo plus n top v) (sv'.showUpTo plus n top v) := by
    intro n
    induction n with
    | zero => exact fun _ _ => R.of_apart (Apart.trait.fatal nofun)
    | succ n ih => exact fun top v => hwith _ _ (ih false) top v
  exact R.bind (R.of_apart Apart.trait.heap) fun _ => hupTo _ _ _

theorem show' (h : sv.Akin R sv') (v : Value) : R.Holds (sv.show' v) (sv'.show' v) :=
  h.showWhole false v

theorem showAll (h : sv.Akin R sv') (vs : List Value) :
    R.Holds (sv.showAll vs) (sv'.showAll vs) :=
  R.bind (R.mapM h.show') fun _ => R.pure _

theorem showSpaced (h : sv.Akin R sv') (vs : List Value) :
    R.Holds (sv.showSpaced vs) (sv'.showSpaced vs) :=
  R.bind (R.mapM h.show') fun _ => R.pure _

theorem sprint (h : sv.Akin R sv') (vs : List Value) :
    R.Holds (sv.sprint vs) (sv'.sprint vs) := by
  induction vs with
  | nil => exact R.pure _
  | cons v vs ih =>
      cases vs with
      | nil => exact h.show' v
      | cons w rest => exact R.bind (h.show' v) fun _ => R.bind ih fun _ => R.pure _

theorem sprintln (h : sv.Akin R sv') (vs : List Value) :
    R.Holds (sv.sprintln vs) (sv'.sprintln vs) :=
  R.bind (h.showSpaced vs) fun _ => R.pure _

theorem showVerb (h : sv.Akin R sv') (d : Directive) (v : Value) :
    R.Holds (sv.showVerb d v) (sv'.showVerb d v) := by
  have hshow := h.show'
  have hwhole := h.showWhole
  have hbad : ∀ verb v, R.Holds (sv.badVerb verb v) (sv'.badVerb verb v) := fun verb v =>
    R.bind (hshow v) fun _ => R.bind (R.of_apart Apart.trait.heap) fun _ => R.pure _
  have hother : R.Holds (sv.showOther d v) (sv'.showOther d v) := by
    unfold showOther
    split
    · exact R.bind (hshow v) fun _ => R.pure _
    all_goals first
      | exact R.pure _
      | exact hshow v
      | exact hbad _ v
  have hint : ∀ n, R.Holds (sv.showInt d v n) (sv'.showInt d v n) := by
    intro n
    unfold showInt
    split <;> grind
  have hfloat : ∀ x single, R.Holds (sv.showFloat d v x single) (sv'.showFloat d v x single) := by
    intro x single
    unfold showFloat
    grind
  unfold Services.showVerb
  split
  · exact hwhole _ _
  · split
    · exact R.bind (R.of_apart Apart.trait.heap) fun _ => R.pure _
    · split
      · split <;> grind
      · exact hint _
      · exact hfloat _ _
      · exact hfloat _ _
      · split <;> grind
      · exact hother

theorem sprintf (h : sv.Akin R sv') (format : String) (args : List Value) :
    R.Holds (sv.sprintf format args) (sv'.sprintf format args) := by
  have hverb := h.showVerb
  have hpieces : ∀ pieces args, R.Holds (sv.showPieces pieces args)
      (sv'.showPieces pieces args) := by
    intro pieces
    induction pieces with
    | nil => exact fun _ => R.pure _
    | cons piece pieces ih =>
        intro args
        cases piece with
        | literal s =>
            unfold showPieces
            exact R.bind (ih _) fun _ => R.pure _
        | verb d =>
            cases args with
            | nil =>
                unfold showPieces
                exact R.bind (ih _) fun _ => R.pure _
            | cons v args =>
                unfold showPieces
                exact R.bind (hverb _ _) fun _ => R.bind (ih _) fun _ => R.pure _
  unfold Services.sprintf
  refine R.bind (hpieces _ _) fun shown => ?_
  dsimp only
  split
  · exact R.pure _
  · exact R.bind (R.mapM fun v => R.bind (h.show' v) fun _ => R.bind (R.of_apart Apart.trait.heap) fun _ =>
      R.pure _) fun _ => R.pure _

end Akin

end Services

end StepGraph

namespace StepGraph

open Exec (Apart Trait)

variable {R : Exec.Regime} {sv sv' : Services}

namespace Host

attribute [local grind ←] Trait.pure Trait.bind Trait.mapM Trait.heap Trait.fatal Trait.notDefined
  Trait.gentle Apart.print Apart.printLine Heap.gentle_newError Heap.gentle_newSlice

theorem apart_expectArgs (func : String) (args : List Value) (count : Nat) :
    Apart.trait.Holds (expectArgs func args count) := by
  unfold expectArgs
  grind

theorem apart_arg (func : String) (args : List Value) (i : Nat) : Apart.trait.Holds (arg func args i) := by
  unfold arg
  grind

attribute [local grind ←] apart_expectArgs apart_arg

theorem apart_strArg (func : String) (args : List Value) (i : Nat) :
    Apart.trait.Holds (strArg func args i) := by
  unfold strArg
  grind

theorem apart_floatArg (func : String) (args : List Value) (i : Nat) :
    Apart.trait.Holds (floatArg func args i) := by
  unfold floatArg
  grind

theorem apart_intArg (func : String) (args : List Value) (i : Nat) :
    Apart.trait.Holds (intArg func args i) := by
  unfold intArg
  grind

attribute [local grind ←] apart_strArg apart_floatArg apart_intArg

theorem apart_stringSlice (texts : List String) : Apart.trait.Holds (stringSlice texts) :=
  Apart.trait.gentle (Heap.gentle_newSlice _)

theorem apart_join (func : String) (args : List Value) : Apart.trait.Holds (join func args) := by
  unfold join
  let T := Apart.trait
  have hjoined : ∀ {f : Value → Exec String} (sep : String) (vs : List Value), (∀ v, T.Holds (f v)) →
      T.Holds (do return Value.str (sep.intercalate (← vs.mapM f))) :=
    fun _ _ hf => T.bind (T.mapM hf) fun _ => T.pure _
  refine T.bind (apart_strArg _ _ _) fun sep => T.bind (apart_arg _ _ _) fun v => ?_
  split
  · exact T.bind T.heap fun _ => T.bind (T.pure _) fun _ => hjoined _ _ fun _ => by grind
  · exact T.bind (T.pure _) fun _ => hjoined _ _ fun _ => by grind
  · exact T.bind (T.notDefined _ _) fun _ => hjoined _ _ fun _ => by grind

theorem apart_repeated (func : String) (args : List Value) : Apart.trait.Holds (repeated func args) := by
  have hthrow : Apart.trait.Holds (throw (.panic (.str "strings: negative Repeat count")) : Exec Value) :=
    Apart.trait.throw nofun id
  unfold repeated
  grind

theorem apart_replaced (func : String) (args : List Value) : Apart.trait.Holds (replaced func args) := by
  unfold replaced
  grind

theorem apart_replacedAll (func : String) (args : List Value) : Apart.trait.Holds (replacedAll func args) := by
  unfold replacedAll
  grind

theorem holds_formatted (hsv : sv.Akin R sv') (func : String) (args : List Value) :
    R.Holds (formatted func sv args) (formatted func sv' args) :=
  R.bind (R.of_apart (apart_strArg _ _ _)) fun _ => hsv.sprintf _ _

end Host

def HostMember.Aloof : HostMember → Prop
  | .func f => f.Aloof
  | .const _ => True

def HostPackage.Aloof (pkg : HostPackage) : Prop := ∀ x ∈ pkg.members, x.2.Aloof

-- A function that does not make use of the services.
theorem HostFunction.Aloof.of_apart {f : HostFunction} (hsame : ∀ sv sv', f sv = f sv')
    (h : ∀ sv args, Apart.trait.Holds (f sv args)) : f.Aloof := fun R sv sv' _ args => by
  rw [hsame sv' sv]
  exact R.of_apart (h sv args)

theorem HostRegistry.aloof_of_packages {r : HostRegistry} (h : ∀ x ∈ r, x.2.Aloof) :
    r.Aloof := by
  intro ref f hf
  unfold HostRegistry.function? at hf
  split at hf
  · next run hmember =>
      cases hf
      obtain ⟨pkg, hpkg, hname⟩ := Option.bind_eq_some_iff.mp hmember
      obtain ⟨l₁, l₂, hl, -⟩ := List.lookup_eq_some_iff.mp hpkg
      obtain ⟨l₃, l₄, hl', -⟩ := List.lookup_eq_some_iff.mp hname
      exact h (ref.path, pkg) (by simp [hl]) (ref.member, .func f) (by simp [hl'])
  · cases hf

namespace Host

attribute [local grind ←] Trait.pure Trait.bind Apart.print Apart.printLine Trait.gentle
  Trait.notDefined Heap.gentle_newError apart_expectArgs apart_arg apart_strArg apart_floatArg
  apart_stringSlice

theorem errors_aloof : errors.Aloof :=
  List.forall_mem_cons.mpr ⟨.of_apart (fun _ _ => rfl) fun sv args => by grind, nofun⟩

theorem fmt_aloof : fmt.Aloof := by
  unfold HostPackage.Aloof fmt
  simp only [List.forall_mem_cons, List.not_mem_nil, false_implies, implies_true, and_true]
  refine ⟨?_, ?_, ?_, ?_, ?_, ?_, ?_⟩
  all_goals intro R sv sv' h args
  · exact R.bind (h.sprint args) fun _ => R.of_apart (by grind)
  · exact R.bind (h.showSpaced args) fun _ => R.of_apart (by grind)
  · exact R.bind (holds_formatted h _ args) fun _ => R.of_apart (by grind)
  · exact R.bind (h.sprint args) fun _ => R.pure _
  · exact R.bind (h.sprintln args) fun _ => R.pure _
  · exact R.bind (holds_formatted h _ args) fun _ => R.pure _
  · exact R.bind (holds_formatted h _ args) fun _ => R.of_apart (by grind)

theorem stringFunc_aloof {name : String} {count : Nat} {body : String → List Value → Exec Value}
    (hbody : ∀ func args, Apart.trait.Holds (body func args)) : (stringFunc name count body).2.Aloof :=
  .of_apart (fun _ _ => rfl) fun sv args => by grind

theorem ofString_aloof (name : String) (f : String → String) : (ofString name f).2.Aloof :=
  stringFunc_aloof fun _ _ => by grind

theorem ofStrings_aloof (name : String) (f : String → String → Value) :
    (ofStrings name f).2.Aloof :=
  stringFunc_aloof fun _ _ => by grind

theorem strings_aloof : strings.Aloof := by
  unfold HostPackage.Aloof strings
  simp only [List.forall_mem_cons, List.not_mem_nil, false_implies, implies_true, and_true]
  exact ⟨ofStrings_aloof _ _, ofStrings_aloof _ _, ofStrings_aloof _ _,
    ofStrings_aloof _ _, stringFunc_aloof apart_join, stringFunc_aloof apart_repeated,
    stringFunc_aloof fun _ _ => by grind, ofString_aloof _ _, ofString_aloof _ _,
    ofString_aloof _ _, stringFunc_aloof fun _ _ => by grind,
    stringFunc_aloof apart_replaced, stringFunc_aloof apart_replacedAll⟩

theorem unaryMath_aloof (name : String) (f : Float → Float) : (unaryMath name f).2.Aloof :=
  .of_apart (fun _ _ => rfl) fun sv args => by grind

theorem binaryMath_aloof (name : String) (f : Float → Float → Float) :
    (binaryMath name f).2.Aloof :=
  .of_apart (fun _ _ => rfl) fun sv args => by grind

theorem math_aloof : math.Aloof := by
  unfold HostPackage.Aloof math
  simp only [List.forall_mem_cons, List.not_mem_nil, false_implies, implies_true, and_true]
  exact ⟨trivial, trivial, trivial, trivial, unaryMath_aloof _ _, unaryMath_aloof _ _,
    unaryMath_aloof _ _, unaryMath_aloof _ _, binaryMath_aloof _ _, binaryMath_aloof _ _,
    binaryMath_aloof _ _, .of_apart (fun _ _ => rfl) fun _ _ => by grind, .of_apart (fun _ _ =>
      rfl) fun _ _ => by grind⟩

end Host

-- The packages that every program can import have no other hold on the machine.
theorem HostRegistry.default_aloof : HostRegistry.default.Aloof := by
  refine aloof_of_packages ?_
  unfold HostRegistry.default
  simp only [List.forall_mem_cons, List.not_mem_nil, false_implies, implies_true, and_true]
  exact ⟨Host.fmt_aloof, Host.strings_aloof, Host.math_aloof, Host.errors_aloof⟩

theorem HostRegistry.default_behaves : HostRegistry.default.Behaves := default_aloof.behaves

end StepGraph
