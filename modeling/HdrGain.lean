import HdrGain.Config.Document
import HdrGain.Config
import HdrGain.Gamut
import HdrGain.Codec
import HdrGain.Proofs.Codec.Resolution
import HdrGain.Proofs.Color.Differences
import HdrGain.Proofs.Config.Writing
import HdrGain.Proofs.Gain.Encoding
import HdrGain.Proofs.GainMap.Cells
import HdrGain.Proofs.GainMap.Edges
import HdrGain.Proofs.GainMap.Symmetry
import HdrGain.Proofs.Gamut.Names
import HdrGain.Proofs.Gamut.Routes
import HdrGain.Proofs.Gamut.Tristimulus
import HdrGain.Proofs.Image.Average
import HdrGain.Proofs.Image.Overflow
import HdrGain.Proofs.Image.Pixels
import HdrGain.Proofs.Image.Subsampling
import HdrGain.Proofs.Image.Tiling
import HdrGain.Proofs.Matrix.Overflow
import HdrGain.Proofs.Packing.Fields
import HdrGain.Proofs.RoundTrip.Channels
import HdrGain.Proofs.RoundTrip.Dependence
import HdrGain.Proofs.RoundTrip.Grey
import HdrGain.Proofs.Transfer.Inversion
