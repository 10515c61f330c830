import OpenDab.MscLoss
import OpenDab.Selection
import OpenDab.FicAssembly
import OpenDab.DabPlus
import OpenDab.FigParsing
import OpenDab.Described
import OpenDab.MainLoop
import OpenDab.Library.Bitmap
import OpenDab.Library.Trellis
import OpenDab.Wfic.Viterbi
import OpenDab.Wfic.Code
import OpenDab.Wfic.Decoder
import OpenDab.Wfic.Optimal
import OpenDab.Wfic.Erasure
import OpenDab.Library.Puncturing
import OpenDab.MscDepuncture
import OpenDab.Wfic.Puncture
import OpenDab.Library.Crc
import OpenDab.Wfic.Fib
import OpenDab.Wfic.FicDecode
import OpenDab.EepProfiles
import OpenDab.Wfic.Correction
import OpenDab.Wfic.MaximumLikelihood
import OpenDab.Library.Chain
import OpenDab.ServiceList
import OpenDab.Driver
import OpenDab.FigReads
import OpenDab.PrsAssembly
import OpenDab.CrcCheck
import OpenDab.SuperframeDecoding
import OpenDab.SuperframeEncoding
import OpenDab.SuperframeRoundTrip
import OpenDab.CrcErrors
import OpenDab.AdtsHeader
import OpenDab.AccessUnits
import OpenDab.DspBoot
import OpenDab.Duplicates
import OpenDab.Mp2
import OpenDab.Afc
import OpenDab.ProtectionLevels
import OpenDab.SymbolMap
import OpenDab.AfcPacing
import OpenDab.Wfic.ChainBack
import OpenDab.ReadCall
import OpenDab.Library.Peak
import OpenDab.Wfpk
import OpenDab.Raverage
import OpenDab.BufferResets
import OpenDab.Library.Calendar
import OpenDab.DateTime
import OpenDab.CrcRemainder
import OpenDab.Wfimp
import OpenDab.FicReception
import OpenDab.MscDecode
import OpenDab.MscReception
import OpenDab.Wfic.Nearest
import OpenDab.Library.Fourier
import OpenDab.Spectrum
import OpenDab.Correlation
import OpenDab.Sync
import OpenDab.Tuning
import OpenDab.Wf
import OpenDab.Library.FloatingPoint
import OpenDab.Wfusb
import OpenDab.Wftune
import OpenDab.Wfx
import OpenDab.DriverSession
