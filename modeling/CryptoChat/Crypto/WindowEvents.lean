/-
  CryptoChat.Crypto.WindowEvents — the signals of `MainWindow` (`setupConnections` and
  `openFile` of `app/crypto/Window.cpp`).

  A line edit or the input text that changes starts `updateTimer`, which processes when it
  times out. Another cipher or mode, and a file that is opened, process at once. Nothing is
  connected to `sizeCombo`, and the panels of AES and RSA are not in `stackedPanels`.
  A `process` that ends in no text ends the run.

  Proved, over every run from the constructor:
  - `run_panel`: the panel on top is that of the selected cipher, for the ciphers that have
    one in the stack.
  - `output_follows`: while the timer is not running, what is shown is what `process` makes
    of the inputs, with AES at some key size. A window that is up to date stays so until
    another key size is chosen; with AES encrypting, that leaves a ciphertext where the
    inputs give an error.
-/

import CryptoChat.Crypto.MainWindow
import CryptoChat.Lib.Machine

namespace CryptoChat.Crypto.MainWindow

open CryptoChat.Lib Ctype Classic Window Machine

/-! ## The code -/

/-- A `QLineEdit` of a panel, with its new text. -/
inductive LineEdit where
  | shiftEdit (shift : Fin 100)
  | vigenereKeyEdit (key : Letters)
  | aEdit (a : Fin 100)
  | bEdit (b : Fin 100)
  | playfairKeyEdit (key : Letters)
  | hillKeyEdit (key : Letters)
  | hillSizeEdit (matrixSize : Fin 10)
  | aesKeyEdit (keyHex : Bytes)
  | pubEdit
  | privEdit

def LineEdit.setText : LineEdit → Panels → Panels
  | .shiftEdit shift, panels => { panels with shift := shift }
  | .vigenereKeyEdit key, panels => { panels with vigenereKey := key }
  | .aEdit a, panels => { panels with a := a }
  | .bEdit b, panels => { panels with b := b }
  | .playfairKeyEdit key, panels => { panels with playfairKey := key }
  | .hillKeyEdit key, panels => { panels with hillKey := key }
  | .hillSizeEdit matrixSize, panels => { panels with matrixSize := matrixSize }
  | .aesKeyEdit keyHex, panels => { panels with keyHex := keyHex }
  | .pubEdit, panels => panels
  | .privEdit, panels => panels

/-- The place in `cipherSelect`. -/
def Cipher.index : Cipher → Nat
  | .caesar => 0
  | .vigenere => 1
  | .affine => 2
  | .playfair => 3
  | .hill => 4
  | .aes => 5
  | .rsa => 6

structure Widgets where
  inputs : Inputs
  /-- The index of the panel on top. -/
  stackedPanels : Nat
  /-- Started, and not timed out. -/
  updateTimer : Bool
  outputText : Bytes

inductive Event where
  | textChanged (inputText : Bytes)
  | lineEditChanged (edit : LineEdit)
  | sizeSelected (keySize : { size : Nat // size ∈ keySizes })
  | cipherSelected (cipher : Cipher)
  | toggled
  | timeout
  | openFile (content : Bytes)

/-- `setCurrentIndex` of a stack of five widgets. An index out of range is ignored. -/
def setCurrentIndex (index current : Nat) : Nat := if index < 5 then index else current

/-- The slot `process`. -/
def update (w : Widgets) : Option Widgets := (process w.inputs).map fun text => { w with outputText := text }

def next (w : Widgets) : Event → Option Widgets
  | .textChanged inputText => some { w with inputs.inputText := inputText, updateTimer := true }
  | .lineEditChanged edit => some { w with inputs.panels := edit.setText w.inputs.panels, updateTimer := true }
  | .sizeSelected keySize => some { w with inputs.panels.keySize := keySize }
  | .cipherSelected cipher =>
    if cipher = w.inputs.cipherSelect then some w
    else update { w with inputs.cipherSelect := cipher, stackedPanels := setCurrentIndex cipher.index w.stackedPanels }
  | .toggled => update { w with inputs.encryptRadio := !w.inputs.encryptRadio }
  | .timeout => if w.updateTimer then update { w with updateTimer := false } else none
  | .openFile content => update { w with inputs.inputText := content, updateTimer := true }

/-- A key of the defaults. -/
def letters (text : List Char) (h : ∀ ch ∈ ascii text, isalpha ch = true) : Letters := ⟨ascii text, h⟩

/-- After `initializeDefaults`: the edits it sets have started the timer. -/
def init : Widgets where
  inputs := {
    cipherSelect := .caesar
    encryptRadio := true
    inputText := []
    panels := {
      shift := 3
      vigenereKey := letters "LEMON".toList (by decide)
      a := 5
      b := 8
      playfairKey := letters "MONARCHY".toList (by decide)
      hillKey := letters "GYBNQKURP".toList (by decide)
      matrixSize := 3
      keySize := ⟨16, by decide⟩
      keyHex := [] } }
  stackedPanels := 0
  updateTimer := true
  outputText := []

/-! ## What a step shows -/

/-- What is shown is what `process` makes of the inputs. -/
def Fresh (w : Widgets) : Prop := process w.inputs = some w.outputText

/-- The inputs with another key size. -/
def withSize (inputs : Inputs) (keySize : { size : Nat // size ∈ keySizes }) : Inputs :=
  { inputs with panels.keySize := keySize }

/-- Only AES reads the key size. -/
theorem process_withSize {inputs : Inputs} (h : inputs.cipherSelect ≠ .aes) (keySize : { size : Nat // size ∈ keySizes }) :
    process (withSize inputs keySize) = process inputs := by
  have hresult : result (withSize inputs keySize) = result inputs := by
    unfold result withSize
    cases hc : inputs.cipherSelect with
    | aes => exact absurd hc h
    | _ => rfl
  rw [process, hresult]
  rfl

variable {w w' : Widgets} {e : Event}

theorem update_eq_some (h : update w = some w') :
    Fresh w' ∧ w'.inputs = w.inputs ∧ w'.stackedPanels = w.stackedPanels ∧ w'.updateTimer = w.updateTimer := by
  obtain ⟨text, htext, rfl⟩ := Option.map_eq_some_iff.mp h
  exact ⟨htext, rfl, rfl, rfl⟩

/-- An event starts the timer, or processes, or changes no more than the key size. -/
theorem next_cases (h : next w e = some w') : w'.updateTimer = true ∨ Fresh w' ∨
    w'.updateTimer = w.updateTimer ∧ w'.outputText = w.outputText ∧ w'.inputs = withSize w.inputs w'.inputs.panels.keySize ∧
      ((∀ keySize, e ≠ .sizeSelected keySize) → w' = w) := by
  cases e with
  | textChanged inputText =>
    cases h
    exact .inl rfl
  | lineEditChanged edit =>
    cases h
    exact .inl rfl
  | sizeSelected keySize =>
    cases h
    exact .inr (.inr ⟨rfl, rfl, rfl, fun hne => absurd rfl (hne keySize)⟩)
  | cipherSelected cipher =>
    rw [next] at h
    split at h
    · cases h
      exact .inr (.inr ⟨rfl, rfl, rfl, fun _ => rfl⟩)
    · exact .inr (.inl (update_eq_some h).1)
  | toggled => exact .inr (.inl (update_eq_some h).1)
  | timeout =>
    rw [next] at h
    split at h
    · exact .inr (.inl (update_eq_some h).1)
    · cases h
  | openFile content => exact .inr (.inl (update_eq_some h).1)

/-! ## Over a run -/

/-- Between the last `process` and now only the key size may have changed, if no edit has. -/
def Idle (w : Widgets) : Prop :=
  w.updateTimer = false → ∃ keySize, process (withSize w.inputs keySize) = some w.outputText

theorem idle_of_fresh (h : Fresh w) : Idle w := fun _ => ⟨w.inputs.panels.keySize, h⟩

theorem next_idle (hidle : Idle w) (h : next w e = some w') : Idle w' := by
  rcases next_cases h with htimer | hfresh | ⟨htimer, hout, hin, -⟩
  · intro hoff
    rw [htimer] at hoff
    cases hoff
  · exact idle_of_fresh hfresh
  · intro hoff
    obtain ⟨keySize, hprocess⟩ := hidle (htimer ▸ hoff)
    refine ⟨keySize, ?_⟩
    rw [hout, hin]
    exact hprocess

theorem run_idle (h : Run next any init w) : Idle w := by
  refine run_invariant Idle ?_ (fun _ _ _ ha _ hn => next_idle ha hn) h
  intro hoff
  cases hoff

/-- Not a choice of another key size. -/
def KeepsSize (_ : Widgets) (e : Event) : Prop := ∀ keySize, e ≠ .sizeSelected keySize

theorem run_fresh (hfresh : Fresh w) (h : Run next KeepsSize w w') (hoff : w'.updateTimer = false) : Fresh w' := by
  refine run_invariant (fun x => x.updateTimer = false → Fresh x) (fun _ => hfresh) ?_ h hoff
  intro a e b ha hkeeps hn hb
  rcases next_cases hn with htimer | hb' | ⟨-, -, -, hsame⟩
  · rw [htimer] at hb
    cases hb
  · exact hb'
  · rw [hsame hkeeps] at hb ⊢
    exact ha hb

/-- The panel on top, where the stack has one. -/
def Panel (w : Widgets) : Prop := w.inputs.cipherSelect.index < 5 → w.stackedPanels = w.inputs.cipherSelect.index

theorem next_panel (hpanel : Panel w) (h : next w e = some w') : Panel w' := by
  cases e with
  | textChanged inputText =>
    cases h
    exact hpanel
  | lineEditChanged edit =>
    cases h
    exact hpanel
  | sizeSelected keySize =>
    cases h
    exact hpanel
  | cipherSelected cipher =>
    rw [next] at h
    split at h
    · cases h
      exact hpanel
    · obtain ⟨-, hin, htop, -⟩ := update_eq_some h
      rw [Panel, hin, htop]
      exact fun hindex => if_pos hindex
  | toggled =>
    obtain ⟨-, hin, htop, -⟩ := update_eq_some h
    rw [Panel, hin, htop]
    exact hpanel
  | timeout =>
    rw [next] at h
    split at h
    · obtain ⟨-, hin, htop, -⟩ := update_eq_some h
      rw [Panel, hin, htop]
      exact hpanel
    · cases h
  | openFile content =>
    obtain ⟨-, hin, htop, -⟩ := update_eq_some h
    rw [Panel, hin, htop]
    exact hpanel

theorem run_panel (h : Run next any init w) : Panel w :=
  run_invariant Panel (fun _ => rfl) (fun _ _ _ ha _ hn => next_panel ha hn) h

theorem exists_update (h : ¬ Faults w.inputs) : ∃ w', update w = some w' := by
  obtain ⟨r, hr⟩ := Option.ne_none_iff_exists'.mp ((defined_result w.inputs).mpr h)
  exact ⟨{ w with outputText := output r }, by rw [update, process, hr]; rfl⟩

/-! ## A ciphertext under another key size -/

/-- AES encrypting under a key that is accepted. -/
structure Encrypting (inputs : Inputs) : Prop where
  aes : inputs.cipherSelect = .aes
  mode : inputs.encryptRadio = true
  key : inputs.panels.keyHex.length / 2 = inputs.panels.keySize

variable {inputs : Inputs}

theorem Encrypting.not_faults (h : Encrypting inputs) : ¬ Faults inputs := by
  rintro (⟨hvigenere, -⟩ | ⟨-, hmode, -⟩)
  · rw [h.aes] at hvigenere
    cases hvigenere
  · rw [h.mode] at hmode
    cases hmode

theorem of_return {α β : Type} {x : ExceptT String Option α} {f : α → β} {b : β}
    (h : (do let a ← x; return f a) = (pure b : ExceptT String Option β)) : ∃ a, b = f a := by
  match x with
  | none => cases h
  | some (.error what) => cases h
  | some (.ok a) =>
    cases h
    exact ⟨a, rfl⟩

theorem encrypt_hex {aes : Aes.AES} {text shown : Bytes} (h : Window.encrypt aes text = pure shown) :
    ∃ encrypted, shown = Utils.toHex encrypted :=
  of_return h

/-- A ciphertext in hex has two digits for each byte. -/
theorem Encrypting.even (h : Encrypting inputs) {text : Bytes} (ht : process inputs = some text) : 2 ∣ text.length := by
  rcases makeAes_cases inputs.panels.keySize inputs.panels.keyHex with ⟨-, aes, haes⟩ | ⟨hne, -⟩
  · obtain ⟨shown, henc, -⟩ := decrypt_of_encrypt aes inputs.inputText
    have hresult : result inputs = pure shown := by
      rw [result, h.aes, h.mode]
      simp only [Window.process, haes]
      exact henc
    obtain ⟨encrypted, rfl⟩ := encrypt_hex henc
    rw [process, hresult] at ht
    cases ht
    exact ⟨_, Utils.length_toHex encrypted⟩
  · exact absurd h.key hne

theorem Encrypting.process_other (h : Encrypting inputs) {keySize : { size : Nat // size ∈ keySizes }}
    (hne : keySize ≠ inputs.panels.keySize) :
    process (withSize inputs keySize) = some (ascii "[Error] Key hex length mismatch".toList) := by
  have hkey : inputs.panels.keyHex.length / 2 ≠ keySize := by
    rw [h.key]
    exact fun heq => hne (Subtype.ext heq).symm
  have hresult : result (withSize inputs keySize) = Window.process true keySize inputs.panels.keyHex inputs.inputText := by
    rw [← h.mode]
    simp only [result, withSize, h.aes]
  rw [process, hresult]
  exact output_mismatch keySize.2 hkey true inputs.inputText

/-- The ciphertext stays, though the key is now of the wrong length. -/
theorem stale_size (h : Encrypting w.inputs) (hfresh : Fresh w) {keySize : { size : Nat // size ∈ keySizes }}
    (hne : keySize ≠ w.inputs.panels.keySize) :
    ∃ w', next w (.sizeSelected keySize) = some w' ∧ w'.updateTimer = w.updateTimer ∧ ¬ Fresh w' := by
  refine ⟨_, rfl, rfl, ?_⟩
  intro hstale
  have heven := h.even hfresh
  have hother := h.process_other hne
  have hshown : w.outputText = ascii "[Error] Key hex length mismatch".toList :=
    Option.some_inj.mp (hstale.symm.trans hother)
  rw [hshown] at heven
  exact absurd heven (by decide)

/-! ## The window -/

structure Follows (w : Widgets) : Prop where
  /-- The timer, when it times out, brings the window up to date. -/
  fires : w.updateTimer = true → ¬ Faults w.inputs →
    ∃ w', next w .timeout = some w' ∧ w'.inputs = w.inputs ∧ w'.updateTimer = false ∧ Fresh w'
  shown : w.updateTimer = false → ∃ keySize, process (withSize w.inputs keySize) = some w.outputText
  fresh : w.updateTimer = false → w.inputs.cipherSelect ≠ .aes → Fresh w
  kept : Fresh w → ∀ w', Run next KeepsSize w w' → w'.updateTimer = false → Fresh w'
  stale : Fresh w → Encrypting w.inputs → ∀ keySize ≠ w.inputs.panels.keySize,
    ∃ w', next w (.sizeSelected keySize) = some w' ∧ w'.updateTimer = w.updateTimer ∧ ¬ Fresh w'

/-- For every run from the constructor. -/
theorem output_follows (h : Run next any init w) : Panel w ∧ Follows w := by
  have hidle := run_idle h
  refine ⟨run_panel h, ?_, hidle, ?_, fun hfresh w' hrun hoff => run_fresh hfresh hrun hoff,
    fun hfresh hencrypting keySize hne => stale_size hencrypting hfresh hne⟩
  · intro hon hfaults
    obtain ⟨w', hw'⟩ := exists_update (w := { w with updateTimer := false }) hfaults
    obtain ⟨hfresh, hin, -, hoff⟩ := update_eq_some hw'
    refine ⟨w', ?_, hin, hoff, hfresh⟩
    rw [next, if_pos hon]
    exact hw'
  · intro hoff haes
    obtain ⟨keySize, hprocess⟩ := hidle hoff
    rw [process_withSize haes] at hprocess
    exact hprocess

/-- A key of 16 bytes is typed, and AES is selected: a ciphertext of the empty text, up to date. -/
theorem output_follows_aes : ∃ w, Run next any init w ∧ Encrypting w.inputs ∧ w.updateTimer = false ∧ Fresh w ∧
    Panel w ∧ Follows w := by
  have htyped : Run next any init { init with inputs.panels.keyHex := List.replicate 32 (chr '0') } :=
    Run.refl.snoc (e := .lineEditChanged (.aesKeyEdit (List.replicate 32 (chr '0')))) trivial rfl
  have hcaesar : ¬ Faults { init.inputs with panels.keyHex := List.replicate 32 (chr '0') } := by
    rintro (⟨hvigenere, -⟩ | ⟨haes, -⟩)
    · cases hvigenere
    · cases haes
  obtain ⟨w, hw, hin, hoff, -⟩ := (output_follows htyped).2.fires rfl hcaesar
  have hencrypting : Encrypting { w.inputs with cipherSelect := .aes } := by
    rw [hin]
    exact ⟨rfl, rfl, rfl⟩
  obtain ⟨w', hw'⟩ := exists_update (w := { w with
    inputs.cipherSelect := .aes, stackedPanels := setCurrentIndex 5 w.stackedPanels }) hencrypting.not_faults
  obtain ⟨hfresh, hin', -, hoff'⟩ := update_eq_some hw'
  have hnext : next w (.cipherSelected .aes) = some w' := by
    rw [next, if_neg (by rw [hin]; exact nofun)]
    exact hw'
  have hrun : Run next any init w' := (htyped.snoc trivial hw).snoc trivial hnext
  refine ⟨w', hrun, ?_, ?_, hfresh, output_follows hrun⟩
  · rw [hin']
    exact hencrypting
  · rw [hoff']
    exact hoff

end CryptoChat.Crypto.MainWindow
