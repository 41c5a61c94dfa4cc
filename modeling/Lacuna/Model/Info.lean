import Lacuna.Model.Command

/-!
# The inspection of an archive

`handle_info` of `main.cpp`, which prints what the header of a `.lac` file says.
-/

set_option autoImplicit false

namespace Lacuna.Model

/-- `algo_str` of `handle_info`. -/
def algorithmLabel (algorithmId : UInt8) : Bytes :=
  if algorithmId = 0x01 then text "RLE"
  else if algorithmId = 0x02 then text "Huffman"
  else text "Unknown"

/-- The JSON report of `handle_info`. -/
def infoJson (host : Host) (inputPath algoStr : Bytes) (header : Header) (compressedSize : ℕ) :
    Bytes :=
  List.flatten [
    text "\x7b\n",
    text "  \"file\": \"", inputPath, text "\",\n",
    text "  \"algorithm\": \"", algoStr, text "\",\n",
    text "  \"version\": ", decimal header.version.toNat, text ",\n",
    text "  \"original_size\": ", decimal header.originalSize.toNat, text ",\n",
    text "  \"compressed_size\": ", decimal compressedSize, text ",\n",
    text "  \"ratio\": ",
    host.numbers.fixed (ratio header.originalSize (UInt64.ofNat compressedSize)), text "\n",
    text "\x7d\n"]

/-- The text report of `handle_info`. -/
def infoSummary (host : Host) (algoStr : Bytes) (header : Header) (compressedSize : ℕ) : Bytes :=
  List.flatten [
    text "Algorithm: ", algoStr, text "\n",
    text "Original Size: ", decimal header.originalSize.toNat, text " bytes\n",
    text "Compressed Size: ", decimal compressedSize, text " bytes\n",
    text "Ratio: ", host.numbers.fixed (ratio header.originalSize (UInt64.ofNat compressedSize)),
    text "%\n",
    text "Version: ", decimal header.version.toNat, text "\n"]

/-- What `handle_info` prints when it has read the header. -/
def infoReport (host : Host) (opt : CliOptions) (header : Header) (compressedSize : ℕ) : Bytes :=
  let algoStr := algorithmLabel header.algorithmId
  if opt.jsonOutput then infoJson host opt.positionalTarget algoStr header compressedSize
  else infoSummary host algoStr header compressedSize

/-- `handle_info(opt)`. -/
def handleInfo (host : Host) (opt : CliOptions) (w : World) : Bool × World :=
  let inputPath := opt.positionalTarget
  if inputPath.isEmpty then
    (false, w.complain
      (errorLine host.console "Missing target .lac file for info inspection." [] ++
        usage host.console))
  else
    match w.getFileSize host inputPath with
    | .error said =>
      (false, w.complain (said ++ errorLine host.console
        "Compressed file does not exist or is not accessible: " inputPath))
    | .ok compressedSize =>
      match w.openFile host inputPath with
      | none =>
        (false, w.complain (errorLine host.console "Failed to open file: " inputPath))
      | some input =>
        match (readHeader input).1 with
        | none =>
          (false, w.complain
            (errorLine host.console "Invalid or corrupted .lac header in: " inputPath))
        | some header => (true, w.print (infoReport host opt header compressedSize))

end Lacuna.Model
